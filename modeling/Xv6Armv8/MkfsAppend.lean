import Xv6Armv8.FsContent
import Xv6Armv8.MkfsLayout

/-! Appending to a file of the image. The blocks in use are those below `freeblock`, so the next one is always
free and still zero. An append takes the blocks that the new length asks for, the indirect block among them,
and puts the bytes at the end; what the other files have stays as it is. It fails only for want of blocks or
of room in the file. -/

namespace Xv6Armv8.Mkfs

open Fs Spec Alloc Function List

variable {s t u : State} {E E' E'' : Nat → Dinode} {i c j x b len off : Nat}

/-! ### Taking blocks -/

/-- The blocks of the inodes are those below `freeblock`, and the others are zero. -/
structure Area (E : Nat → Dinode) (s : State) : Prop where
  length : s.length = fssize
  lo : nmeta ≤ s.freeblock
  owns : Owns (slots E s.sect) (fun b => decide (b < s.freeblock)) (nmeta ≤ ·)
  zero : ∀ b, s.freeblock ≤ b → s.sect b = zeroes

/-- The place `c` of inode `i` has the block `x`, and had it before or has got the next one. -/
structure Got (i c x : Nat) (E : Nat → Dinode) (s : State) (E' : Nat → Dinode) (t : State) : Prop where
  area : Area E' t
  others : ∀ j, j ≠ i → E' j = E j
  fields : ∃ a, E' i = { E i with addrs := a } ∧ ∀ k, ndirect < k → a k = (E i).addrs k
  freeinode : t.freeinode = s.freeinode
  low : ∀ b, b < nmeta → t.sect b = s.sect b
  data : ∀ p, p.2 ≠ ndirect → slots E s.sect p ≠ 0 → t.sect (slots E s.sect p) = s.sect (slots E s.sect p)
  cases : (slots E s.sect (i, c) = x ∧ x ≠ 0 ∧ slots E' t.sect = slots E s.sect ∧ t.freeblock = s.freeblock) ∨
    (slots E s.sect (i, c) = 0 ∧ x = s.freeblock ∧ slots E' t.sect = update (slots E s.sect) (i, c) x ∧
      t.freeblock = s.freeblock + 1 ∧ (c ≠ ndirect → t.sect x = zeroes))

theorem Area.got_same (h : Area E s) (hc : slots E s.sect (i, c) = x) (hx : x ≠ 0) : Got i c x E s E s where
  area := h
  others := fun _ _ => rfl
  fields := ⟨(E i).addrs, rfl, fun _ _ => rfl⟩
  freeinode := rfl
  low := fun _ _ => rfl
  data := fun _ _ _ => rfl
  cases := .inl ⟨hc, hx, rfl, rfl⟩

theorem Area.slot_lt (h : Area E s) {p : Nat × Nat} (hp : slots E s.sect p ≠ 0) : slots E s.sect p < s.freeblock :=
  of_decide_eq_true (h.owns.marked hp)

theorem Area.add (h : Area E s) (hc : slots E s.sect (i, c) = 0)
    (hslots : slots E' t.sect = update (slots E s.sect) (i, c) s.freeblock) (hl : t.length = s.length)
    (hfree : t.freeblock = s.freeblock + 1) (hzero : ∀ b, t.freeblock ≤ b → t.sect b = zeroes) : Area E' t where
  length := hl.trans h.length
  lo := by
    have hlo := h.lo
    omega
  owns := by
    have hadd := h.owns.add hc h.lo (decide_eq_false (lt_irrefl s.freeblock))
    have hmark : update (fun b => decide (b < s.freeblock)) s.freeblock true =
        fun b => decide (b < t.freeblock) := by
      funext b
      by_cases hb : b = s.freeblock
      · rw [hb, update_self, hfree]
        exact (decide_eq_true (Nat.lt_succ_self _)).symm
      · rw [update_of_ne hb]
        exact decide_eq_decide.mpr (by omega)
    rw [hslots, ← hmark]
    exact hadd
  zero := hzero

theorem sat_newBlock {Q : Nat → State → Prop} {e : String → Prop} (h : s.freeblock ≤ fssize + 1) :
    Sat newBlock s Q e ↔ Q s.freeblock { s with freeblock := s.freeblock + 1 } := by
  have hu : u32 (s.freeblock + 1) = s.freeblock + 1 := Nat.mod_eq_of_lt (by unfold fssize at h; omega)
  unfold newBlock
  rw [sat_bind, sat_get, sat_bind, sat_modify, sat_pure, hu]

theorem addrFor_got (h : Area E s) (ht : (E i).type ≠ 0) (hc : c ≤ ndirect) (hfree : s.freeblock ≤ fssize) :
    Sat (addrFor (E i) c) s (fun d t => ∃ E', E' i = d ∧ Got i c (d.addrs c) E s E' t) fun _ => False := by
  have hslot : slots E s.sect (i, c) = (E i).addrs c := slot_le ht hc
  unfold addrFor
  rw [sat_ite]
  refine ⟨fun h0 => ?_, fun h0 => ⟨E, rfl, h.got_same hslot h0⟩⟩
  rw [sat_bind, sat_newBlock (by omega), sat_pure]
  have hzero : s.sect s.freeblock = zeroes := h.zero _ le_rfl
  have hslots : slots (update E i ((E i).setAddr c s.freeblock)) s.sect =
      update (slots E s.sect) (i, c) s.freeblock := by
    obtain hlt | rfl := Nat.lt_or_eq_of_le hc
    · exact slots_setDirect ht hlt
    · apply slots_setIndirect ht h0
      intro j _
      rw [hzero]
      rfl
  refine ⟨update E i ((E i).setAddr c s.freeblock), update_self .., ?_⟩
  rw [show ({ E i with addrs := update (E i).addrs c s.freeblock } : Dinode).addrs c = s.freeblock from
    update_self ..]
  refine ⟨h.add (hslot.trans h0) hslots rfl rfl fun b hb => h.zero b (Nat.le_of_succ_le hb),
    fun j hj => update_of_ne hj .., ⟨_, update_self .., fun k hk => ?_⟩, rfl, fun _ _ => rfl,
    fun _ _ _ => rfl, .inr ⟨hslot.trans h0, rfl, hslots, rfl, fun _ => hzero⟩⟩
  exact update_of_ne (by omega) ..

theorem entryFor_got (h : Area E s) (ht : (E i).type ≠ 0) (h0 : (E i).addrs ndirect ≠ 0) (hj : j < nindirect)
    (hfree : s.freeblock ≤ fssize + 1) :
    Sat (entryFor ((E i).addrs ndirect) j) s (fun x t => Got i (ndirect + 1 + j) x E s E t)
      fun _ => fssize < s.freeblock := by
  have hind : slots E s.sect (i, ndirect) = (E i).addrs ndirect := slots_indirect ht
  have hindlt : (E i).addrs ndirect < s.freeblock := by
    rw [← hind]
    apply h.slot_lt
    rwa [hind]
  have hslot : slots E s.sect (i, ndirect + 1 + j) = (s.sect ((E i).addrs ndirect)).ld (4 * j) 4 :=
    slot_indirect ht h0 hj
  unfold entryFor
  rw [sat_bind]
  refine rsect_spec h.length (by omega) (fun hlt => ?_) fun hge => by omega
  rw [sat_ite]
  refine ⟨fun hz => ?_, fun hz => h.got_same hslot hz⟩
  rw [sat_bind, sat_newBlock hfree, sat_bind, sat_wsect (s := { s with freeblock := s.freeblock + 1 }) h.length hlt,
    sat_pure]
  have hother : ∀ i', i' ≠ i → (E i').type ≠ 0 → (E i').addrs ndirect ≠ (E i).addrs ndirect := by
    intro i' hi' ht' heq
    have hind' : slots E s.sect (i', ndirect) = (E i').addrs ndirect := slots_indirect ht'
    rw [← hind', ← hind] at heq
    rw [← hind] at h0
    exact hi' (congrArg Prod.fst (h.owns.inj (i', ndirect) (i, ndirect) heq (by rwa [heq])))
  have hslots : slots E (update s.sect ((E i).addrs ndirect)
      ((s.sect ((E i).addrs ndirect)).st (4 * j) 4 s.freeblock)) =
      update (slots E s.sect) (i, ndirect + 1 + j) s.freeblock :=
    slots_st ht rfl h0 hj (by unfold fssize at hfree; omega) hother
  have hsect : ∀ b, b ≠ (E i).addrs ndirect → update s.sect ((E i).addrs ndirect)
      ((s.sect ((E i).addrs ndirect)).st (4 * j) 4 s.freeblock) b = s.sect b := fun b hb => update_of_ne hb ..
  have hlo : nmeta ≤ (E i).addrs ndirect := by
    rw [← hind]
    apply h.owns.area
    rwa [hind]
  refine ⟨h.add (hslot.trans hz) hslots rfl rfl fun b hb => ?_, fun _ _ => rfl, ⟨_, rfl, fun _ _ => rfl⟩, rfl,
    fun b hb => hsect b (by omega), fun p hp hne => hsect _ fun heq => ?_,
    .inr ⟨hslot.trans hz, rfl, hslots, rfl, fun _ => ?_⟩⟩
  · have hb' : s.freeblock + 1 ≤ b := hb
    rw [← h.zero b (by omega)]
    exact hsect b (by omega)
  · rw [← hind] at heq
    exact hp (congrArg Prod.snd (h.owns.inj p (i, ndirect) heq hne))
  · rw [← h.zero s.freeblock le_rfl]
    exact hsect _ (by omega)

/-! ### The blocks of a length -/

/-- The number of the block at a place; the indirect block goes with the first block that it names. -/
def index (k : Nat) : Nat := if k ≤ ndirect then k else k - 1

/-- A file of this length has a block at the place. -/
def Wants (len k : Nat) : Prop := index k * bsize < len

/-- The number of blocks of a file of this length. -/
def need (len : Nat) : Nat := (len + bsize - 1) / bsize + if ndirect * bsize < len then 1 else 0

theorem index_place (n : Nat) : index (place n) = n := by
  unfold index place
  split <;> split <;> omega

theorem need_mono {m n : Nat} (h : m ≤ n) : need m ≤ need n := by
  unfold need bsize ndirect
  split <;> split <;> omega

theorem wants_append {k : Nat} (hlt : off < len) (hle : len ≤ (off / bsize + 1) * bsize) :
    Wants len k ↔ Wants off k ∨ index k = off / bsize := by
  unfold Wants
  unfold bsize at *
  omega

/-- The inodes have just the blocks that their lengths want. -/
structure Blocks (W : Nat → Nat) (E : Nat → Dinode) (s : State) : Prop where
  area : Area E s
  hi : s.freeblock ≤ fssize
  held : ∀ i k, (E i).type ≠ 0 → (slots E s.sect (i, k) ≠ 0 ↔ Wants (W i) k)
  small : ∀ i, W i ≤ maxfile * bsize
  free : ∀ i, (E i).type = 0 → W i = 0

variable {W : Nat → Nat}

/-- There is a block `x` for the bytes behind `off`. -/
structure Room (i x off : Nat) (E : Nat → Dinode) (s : State) (E' : Nat → Dinode) (t : State) : Prop where
  area : Area E' t
  others : ∀ j, j ≠ i → E' j = E j
  fields : ∃ a, E' i = { E i with addrs := a } ∧ ∀ k, ndirect < k → a k = (E i).addrs k
  freeinode : t.freeinode = s.freeinode
  low : ∀ b, b < nmeta → t.sect b = s.sect b
  data : ∀ p, p.2 ≠ ndirect → slots E s.sect p ≠ 0 → t.sect (slots E s.sect p) = s.sect (slots E s.sect p)
  keep : ∀ p, slots E s.sect p ≠ 0 → slots E' t.sect p = slots E s.sect p
  new : ∀ j k, slots E' t.sect (j, k) ≠ 0 ↔ slots E s.sect (j, k) ≠ 0 ∨ j = i ∧ index k = off / bsize
  found : slots E' t.sect (i, place (off / bsize)) = x
  top : t.freeblock = s.freeblock ∨ t.freeblock = x + 1
  count : ∀ len, off < len → len ≤ (off / bsize + 1) * bsize → t.freeblock + need off = s.freeblock + need len

theorem Room.ne (h : Room i x off E s E' t) : x ≠ 0 := by
  rw [← h.found, h.new]
  exact .inr ⟨rfl, index_place _⟩

theorem Room.lt (h : Room i x off E s E' t) : x < t.freeblock := by
  have hne := h.ne
  rw [← h.found] at hne ⊢
  exact h.area.slot_lt hne

theorem Got.found (h : Got i c x E s E' t) : slots E' t.sect (i, c) = x ∧ x ≠ 0 := by
  rcases h.cases with ⟨hc, hx, hslots, -⟩ | ⟨-, hx, hslots, hfree, -⟩
  · rw [hslots]
    exact ⟨hc, hx⟩
  · refine ⟨by rw [hslots, update_self], ?_⟩
    have hlo := h.area.lo
    have hmeta : nmeta = 46 := rfl
    omega

theorem Got.keep (h : Got i c x E s E' t) {p : Nat × Nat} (hp : slots E s.sect p ≠ 0) :
    slots E' t.sect p = slots E s.sect p := by
  rcases h.cases with ⟨-, -, hslots, -⟩ | ⟨hc, -, hslots, -, -⟩
  · rw [hslots]
  · rw [hslots]
    apply update_of_ne
    rintro rfl
    exact hp hc

theorem Got.new (h : Got i c x E s E' t) (p : Nat × Nat) :
    slots E' t.sect p ≠ 0 ↔ slots E s.sect p ≠ 0 ∨ p = (i, c) := by
  constructor
  · intro hp
    by_cases hpc : p = (i, c)
    · exact .inr hpc
    · refine .inl ?_
      rcases h.cases with ⟨-, -, hslots, -⟩ | ⟨-, -, hslots, -, -⟩
      · rwa [hslots] at hp
      · rwa [hslots, update_of_ne hpc] at hp
  · rintro (hp | rfl)
    · rwa [h.keep hp]
    · rw [h.found.1]
      exact h.found.2

theorem need_append (hlt : off < len) (hle : len ≤ (off / bsize + 1) * bsize) :
    need len = need off + (if off / bsize * bsize < off then 0 else if off / bsize = ndirect then 2 else 1) := by
  unfold need
  unfold bsize ndirect at *
  split <;> split <;> split <;> (try split) <;> omega

theorem blockFor_room (h : Blocks W E s) (ht : (E i).type ≠ 0) (hoff : W i = off) (hlt : off / bsize < maxfile) :
    Sat (blockFor (E i) (off / bsize)) s (fun r t => ∃ E', E' i = r.1 ∧ Room i r.2 off E s E' t)
      fun _ => ∀ len, off < len → len ≤ (off / bsize + 1) * bsize → fssize + need off < s.freeblock + need len := by
  have hplace : slots E s.sect (i, place (off / bsize)) ≠ 0 ↔ off / bsize * bsize < off := by
    rw [h.held i _ ht, Wants, index_place, hoff]
  unfold blockFor
  rw [sat_ite]
  refine ⟨fun hd => ?_, fun hd => ?_⟩
  · have hpl : place (off / bsize) = off / bsize := if_pos hd
    have hidx : ∀ k, index k = off / bsize ↔ k = off / bsize := fun k => by
      unfold index
      split <;> omega
    refine ((addrFor_got h.area ht hd.le h.hi).err False.elim).bind fun d t ⟨E', hE', hgot⟩ => ?_
    refine ⟨E', hE', hgot.area, hgot.others, hgot.fields, hgot.freeinode, hgot.low, hgot.data,
      fun p hp => hgot.keep hp, fun j k => ?_, ?_, ?_, fun len h1 h2 => ?_⟩
    · rw [hgot.new, hidx, Prod.mk.injEq]
    · rw [hpl]
      exact hgot.found.1
    · rcases hgot.cases with ⟨-, -, -, hfree⟩ | ⟨-, hx, -, hfree, -⟩
      · exact .inl hfree
      · exact .inr (by rw [hfree, hx])
    · rw [need_append h1 h2]
      rw [hpl] at hplace
      rcases hgot.cases with ⟨hc, hx, -, hfree⟩ | ⟨hc, -, -, hfree, -⟩
      · rw [if_pos (hplace.mp (by rwa [hc])), hfree, Nat.add_zero]
      · rw [if_neg fun hlt' => hplace.mpr hlt' hc, if_neg (by omega), hfree]
        omega
  · have hj : off / bsize - ndirect < nindirect := by
      unfold maxfile at hlt
      omega
    have hpl : place (off / bsize) = ndirect + 1 + (off / bsize - ndirect) := by
      unfold place
      rw [if_neg hd]
      omega
    have hind : slots E s.sect (i, ndirect) ≠ 0 ↔ ndirect * bsize < off := by
      rw [h.held i _ ht, Wants, hoff]
      rfl
    have hfull : ndirect * bsize ≤ off := by
      have hle := Nat.div_mul_le_self off bsize
      have hmul := Nat.mul_le_mul_right bsize (not_lt.mp hd)
      omega
    refine ((addrFor_got h.area ht le_rfl h.hi).err False.elim).bind fun d t ⟨E', hE', hgot⟩ => ?_
    have htop : t.freeblock ≤ fssize + 1 := by
      have hhi := h.hi
      rcases hgot.cases with ⟨-, -, -, hfree⟩ | ⟨-, -, -, hfree, -⟩ <;> omega
    have ht' : (E' i).type ≠ 0 := by
      obtain ⟨a, ha, -⟩ := hgot.fields
      rwa [ha]
    -- a new indirect block has no entries yet
    have hfresh : t.freeblock = s.freeblock + 1 → off = ndirect * bsize ∧
        slots E' t.sect (i, place (off / bsize)) = 0 := by
      intro hnew
      rcases hgot.cases with ⟨-, -, -, hfree⟩ | ⟨hc, -, hslots, -, -⟩
      · omega
      have heq : off = ndirect * bsize := le_antisymm (not_lt.mp fun hlt' => hind.mpr hlt' hc) hfull
      refine ⟨heq, ?_⟩
      rw [hslots, update_of_ne fun hp => place_ne _ (congrArg Prod.snd hp)]
      by_contra hne
      have hbad := hplace.mp hne
      rw [heq] at hbad
      exact absurd hbad (by decide)
    rw [sat_bind, ← hE']
    refine (entryFor_got hgot.area ht' (by rw [hE']; exact hgot.found.2) hj htop).mono (fun x u hgot' => ?_)
      fun _ hbad len h1 h2 => ?_
    · rw [← hpl] at hgot'
      refine ⟨E', rfl, hgot'.area, hgot.others, hgot.fields, hgot'.freeinode.trans hgot.freeinode,
        fun b hb => (hgot'.low b hb).trans (hgot.low b hb), fun p hp hne => ?_, fun p hp => ?_, fun j k => ?_,
        hgot'.found.1, ?_, fun len h1 h2 => ?_⟩
      · have hkeep := hgot.keep hne
        rw [← hgot.data p hp hne, ← hkeep]
        exact hgot'.data p hp (by rwa [hkeep])
      · have hkeep := hgot.keep hp
        rw [← hkeep]
        exact hgot'.keep (by rwa [hkeep])
      · rw [hgot'.new, hgot.new, Prod.mk.injEq, Prod.mk.injEq]
        constructor
        · rintro ((hne | ⟨rfl, rfl⟩) | ⟨rfl, rfl⟩)
          · exact .inl hne
          · by_cases h12 : ndirect * bsize < off
            · exact .inl (hind.mpr h12)
            · refine .inr ⟨rfl, ?_⟩
              have heq : off = ndirect * bsize := by omega
              rw [heq]
              rfl
          · exact .inr ⟨rfl, index_place _⟩
        · rintro (hne | ⟨rfl, hk⟩)
          · exact .inl (.inl hne)
          · by_cases hk' : k = place (off / bsize)
            · exact .inr ⟨rfl, hk'⟩
            · refine .inl (.inr ⟨rfl, ?_⟩)
              rw [hpl] at hk'
              unfold index at hk
              split at hk <;> omega
      · rcases hgot'.cases with ⟨hc', hx, -, hfree'⟩ | ⟨-, hx, -, hfree', -⟩
        · rcases hgot.cases with ⟨-, -, -, hfree⟩ | ⟨-, -, -, hfree, -⟩
          · exact .inl (hfree'.trans hfree)
          · rw [(hfresh hfree).2] at hc'
            exact absurd hc'.symm hx
        · exact .inr (by rw [hfree', hx])
      · rw [need_append h1 h2]
        rcases hgot'.cases with ⟨hc', hx, -, hfree'⟩ | ⟨hc', -, -, hfree', -⟩
        · rcases hgot.cases with ⟨-, -, hslots, hfree⟩ | ⟨-, -, -, hfree, -⟩
          · rw [hslots] at hc'
            rw [if_pos (hplace.mp (by rwa [hc'])), hfree', hfree, Nat.add_zero]
          · rw [(hfresh hfree).2] at hc'
            exact absurd hc'.symm hx
        · rcases hgot.cases with ⟨hc, hy, hslots, hfree⟩ | ⟨-, -, -, hfree, -⟩
          · rw [hslots] at hc'
            have hno : ¬off / bsize * bsize < off := fun hlt' => hplace.mpr hlt' hc'
            have h12 := hind.mp (by rwa [hc])
            have hne : off / bsize ≠ ndirect := by
              intro heq
              rw [heq] at hno
              exact hno h12
            rw [if_neg hno, if_neg hne, hfree', hfree]
            omega
          · obtain ⟨heq, -⟩ := hfresh hfree
            rw [heq]
            rw [if_neg (by decide), if_pos (by decide), hfree', hfree]
            omega
    · obtain ⟨heq, -⟩ : off = ndirect * bsize ∧ _ := hfresh (by
        have hhi := h.hi
        rcases hgot.cases with ⟨-, -, -, hfree⟩ | ⟨-, -, -, hfree, -⟩ <;> omega)
      rw [need_append h1 h2, heq, if_neg (by decide), if_pos (by decide)]
      have hhi : t.freeblock ≤ s.freeblock + 1 := by
        rcases hgot.cases with ⟨-, -, -, hfree⟩ | ⟨-, -, -, hfree, -⟩ <;> omega
      omega

/-! ### Contents -/

variable {C : Nat → List UInt8} {p q : List UInt8}

/-- The bytes of the files are in their blocks. -/
def Holds (C : Nat → List UInt8) (E : Nat → Dinode) (s : State) : Prop :=
  ∀ i x, x < (C i).length → (C i)[x]? = some (s.sect (slots E s.sect (i, place (x / bsize))) (x % bsize))

/-- File `i` is longer by the bytes `p`. -/
def app (C : Nat → List UInt8) (i : Nat) (p : List UInt8) : Nat → List UInt8 := update C i (C i ++ p)

theorem app_self : app C i p i = C i ++ p := update_self ..

theorem app_of_ne (h : j ≠ i) : app C i p j = C j := update_of_ne h ..

theorem app_app : app (app C i p) i q = app C i (p ++ q) := by
  unfold app
  rw [update_self, update_idem, append_assoc]

theorem app_nil : app C i [] = C := by
  unfold app
  rw [append_nil, update_eq_self]

/-- The bytes `p` have been appended to file `i`. -/
structure Appended (i : Nat) (p : List UInt8) (C : Nat → List UInt8) (E : Nat → Dinode) (s : State)
    (E' : Nat → Dinode) (t : State) : Prop where
  blocks : Blocks (fun j => (app C i p j).length) E' t
  holds : Holds (app C i p) E' t
  others : ∀ j, j ≠ i → E' j = E j
  fields : ∃ a, E' i = { E i with addrs := a } ∧ ∀ k, ndirect < k → a k = (E i).addrs k
  freeinode : t.freeinode = s.freeinode
  low : ∀ b, b < nmeta → t.sect b = s.sect b
  count : t.freeblock + need (C i).length = s.freeblock + need ((C i).length + p.length)

theorem Appended.nil (h : Blocks (fun j => (C j).length) E s) (hh : Holds C E s) : Appended i [] C E s E s where
  blocks := by
    rw [app_nil]
    exact h
  holds := by
    rw [app_nil]
    exact hh
  others := fun _ _ => rfl
  fields := ⟨_, rfl, fun _ _ => rfl⟩
  freeinode := rfl
  low := fun _ _ => rfl
  count := rfl

theorem Appended.trans (h : Appended i p C E s E' t) (h' : Appended i q (app C i p) E' t E'' u) :
    Appended i (p ++ q) C E s E'' u where
  blocks := by
    rw [← app_app]
    exact h'.blocks
  holds := by
    rw [← app_app]
    exact h'.holds
  others := fun j hj => (h'.others j hj).trans (h.others j hj)
  fields := by
    obtain ⟨a, ha, hrest⟩ := h.fields
    obtain ⟨a', ha', hrest'⟩ := h'.fields
    refine ⟨a', by rw [ha', ha], fun k hk => ?_⟩
    rw [hrest' k hk, ha]
    exact hrest k hk
  freeinode := h'.freeinode.trans h.freeinode
  low := fun b hb => (h'.low b hb).trans (h.low b hb)
  count := by
    have h1 := h.count
    have h2 := h'.count
    rw [app_self, length_append] at h2
    rw [length_append, ← Nat.add_assoc]
    omega

theorem Room.append (h : Blocks (fun j => (C j).length) E s) (hh : Holds C E s) (hi : (E i).type ≠ 0)
    (hr : Room i x (C i).length E s E' t) (hx : x < fssize) (hmax : (C i).length / bsize < maxfile) (hq : q ≠ [])
    (hlen : (C i).length + q.length ≤ ((C i).length / bsize + 1) * bsize) :
    Appended i q C E s E' (t.put x ((t.sect x).put ((C i).length % bsize) q)) := by
  have hpos : 0 < q.length := length_pos_of_ne_nil hq
  have hx0 := hr.ne
  have hinj : ∀ p : Nat × Nat, slots E' t.sect p = x → p = (i, place ((C i).length / bsize)) := by
    intro p hp
    apply hr.area.owns.inj
    · rw [hp, hr.found]
    · rwa [hp]
  have hnot : ∀ j, (E' j).type ≠ 0 → (E' j).addrs ndirect ≠ x := by
    intro j ht heq
    have hslot : slots E' t.sect (j, ndirect) = x := (slots_indirect ht).trans heq
    exact place_ne _ (congrArg Prod.snd (hinj _ hslot)).symm
  have hslots : ∀ m, slots E' (t.put x m).sect = slots E' t.sect := fun m => slots_update hnot
  have hxlt := hr.lt
  have hxlo : nmeta ≤ x := by
    rw [← hr.found]
    apply hr.area.owns.area
    rwa [hr.found]
  have htype : ∀ j, (E' j).type = (E j).type := by
    intro j
    by_cases hj : j = i
    · obtain ⟨a, ha, -⟩ := hr.fields
      rw [hj, ha]
    · rw [hr.others j hj]
  refine ⟨⟨⟨hr.area.length, hr.area.lo, ?_, fun b hb => ?_⟩, ?_, fun j k ht => ?_, fun j => ?_, fun j ht => ?_⟩,
    fun j y hy => ?_, hr.others, hr.fields, hr.freeinode, fun b hb => ?_, hr.count _ (by omega) hlen⟩
  · rw [hslots]
    exact hr.area.owns
  · have hb' : t.freeblock ≤ b := hb
    rw [← hr.area.zero b hb']
    exact update_of_ne (by omega) ..
  · have hhi := h.hi
    show t.freeblock ≤ fssize
    rcases hr.top with htop | htop <;> omega
  · rw [hslots, hr.new, h.held j k (by rwa [← htype])]
    by_cases hj : j = i
    · rw [hj, app_self, length_append, wants_append (by omega) hlen]
      simp
    · rw [app_of_ne hj]
      simp [hj]
  · by_cases hj : j = i
    · rw [hj, app_self, length_append]
      exact hlen.trans (Nat.mul_le_mul_right bsize hmax)
    · rw [app_of_ne hj]
      exact h.small j
  · have hj : j ≠ i := by
      rintro rfl
      exact hi (by rwa [← htype])
    rw [app_of_ne hj]
    exact h.free j (by rwa [← htype])
  · -- the old bytes are where they were, and the new ones follow
    rw [hslots]
    by_cases hold : y < (C j).length
    · have hget : (app C i q j)[y]? = (C j)[y]? := by
        by_cases hj : j = i
        · rw [hj, app_self]
          rw [hj] at hold
          exact List.getElem?_append_left hold
        · rw [app_of_ne hj]
      have hbyte := hh j y hold
      have hne : slots E s.sect (j, place (y / bsize)) ≠ 0 := by
        have ht : (E j).type ≠ 0 := by
          intro h0
          rw [h.free j h0] at hold
          omega
        rw [h.held j _ ht, Wants, index_place]
        exact lt_of_le_of_lt (Nat.div_mul_le_self y bsize) hold
      rw [hget, hbyte, hr.keep _ hne, ← hr.data _ (place_ne _) hne, ← hr.keep _ hne]
      generalize hB : slots E' t.sect (j, place (y / bsize)) = B
      show _ = some (update t.sect x _ B _)
      by_cases hBx : B = x
      · obtain ⟨rfl, hpl⟩ := Prod.mk.inj (hinj _ (hB.trans hBx))
        have hdiv := place_inj hpl
        rw [hBx, update_self, put_of_not_mem]
        have hy' := Nat.div_add_mod y bsize
        have hC' := Nat.div_add_mod (C j).length bsize
        rw [hdiv] at hy'
        omega
      · rw [update_of_ne hBx]
    · have hj : j = i := by
        by_contra hj
        rw [app_of_ne hj] at hy
        exact hold hy
      subst hj
      rw [app_self, length_append] at hy
      have hdiv : y / bsize = (C j).length / bsize := by
        unfold bsize at *
        omega
      have hmod : y % bsize = (C j).length % bsize + (y - (C j).length) := by
        unfold bsize at *
        omega
      rw [app_self, List.getElem?_append_right (by omega), List.getElem?_eq_getElem (by omega), hdiv, hr.found, hmod]
      congr 1
      show _ = update t.sect x _ x _
      rw [update_self, put_of_mem (by omega)]
  · exact (update_of_ne (by omega) ..).trans (hr.low b hb)

/-- There is not room for the bytes `p` in the file, or not in the image. -/
def Lacks (i : Nat) (p : List UInt8) (C : Nat → List UInt8) (s : State) : Prop :=
  maxfile * bsize < (C i).length + p.length ∨
    fssize + need (C i).length < s.freeblock + need ((C i).length + p.length)

theorem Appended.lacks (h : Appended i p C E s E' t) (h' : Lacks i q (app C i p) t) : Lacks i (p ++ q) C s := by
  have hcount := h.count
  unfold Lacks at h' ⊢
  rw [app_self, length_append] at h'
  rw [length_append, ← Nat.add_assoc]
  omega

theorem iappendLoop_spec (turns : Nat) (hturns : p.length ≤ turns) (h : Blocks (fun j => (C j).length) E s)
    (hh : Holds C E s) (hi : (E i).type ≠ 0) :
    Sat (iappendLoop turns (E i) (C i).length p) s
      (fun r t => r.2 = (C i).length + p.length ∧ ∃ E', E' i = r.1 ∧ Appended i p C E s E' t)
      fun _ => Lacks i p C s := by
  induction turns generalizing C E s p with
  | zero =>
    obtain rfl : p = [] := length_eq_zero_iff.mp (by omega)
    exact ⟨rfl, E, rfl, .nil h hh⟩
  | succ turns ih =>
    unfold iappendLoop
    by_cases hp : p = []
    · subst hp
      rw [if_pos rfl]
      exact ⟨rfl, E, rfl, .nil h hh⟩
    have hpos : 0 < p.length := length_pos_of_ne_nil hp
    rw [if_neg hp]
    dsimp only
    rw [sat_ite]
    refine ⟨fun hmax => ?_, fun hmax => .inl ?_⟩
    · generalize hn : min p.length (((C i).length / bsize + 1) * bsize - (C i).length) = n1
      have hn1 : n1 ≤ p.length := hn ▸ Nat.min_le_left ..
      have hn2 : (C i).length + n1 ≤ ((C i).length / bsize + 1) * bsize := by
        unfold bsize at *
        omega
      have hn0 : 0 < n1 := by
        unfold bsize at *
        omega
      have hq : p.take n1 ≠ [] := by
        intro hnil
        have hlen := congrArg List.length hnil
        rw [length_take, length_nil] at hlen
        omega
      have hqlen : (p.take n1).length = n1 := length_take_of_le hn1
      rw [sat_bind]
      refine (blockFor_room h hi rfl hmax).mono (fun r t ⟨E', hE', hr⟩ => ?_) fun _ hbad => .inr ?_
      · obtain ⟨din, x⟩ := r
        obtain rfl : E' i = din := hE'
        replace hr : Room i x (C i).length E s E' t := hr
        have hx := hr.lt
        have hcount := hr.count ((C i).length + n1) (by omega) hn2
        have hneed : need ((C i).length + n1) = _ := need_append (by omega) hn2
        have hhi := h.hi
        have htwo : need ((C i).length + n1) ≤ need (C i).length + 2 := by
          rw [hneed]
          split
          · omega
          · split <;> omega
        dsimp only
        rw [sat_bind]
        refine rsect_spec hr.area.length (by omega) (fun hlt => ?_) fun hge => .inr ?_
        · have happ := hr.append h hh hi hlt hmax hq (by rwa [hqlen])
          rw [sat_bind, sat_wsect hr.area.length hlt]
          have hoff : (C i).length - (C i).length / bsize * bsize = (C i).length % bsize := by
            have hdm := Nat.div_add_mod' (C i).length bsize
            omega
          rw [hoff]
          have hih := ih (p := p.drop n1) (by rw [length_drop]; omega) happ.blocks happ.holds (by
            obtain ⟨a, ha, -⟩ := happ.fields
            rwa [ha])
          rw [app_self, length_append, hqlen] at hih
          refine hih.mono (fun r u ⟨hoff', E'', hE'', happ'⟩ => ⟨?_, E'', hE'', ?_⟩) fun _ hbad => ?_
          · rw [hoff', length_drop]
            omega
          · have htrans := happ.trans happ'
            rwa [take_append_drop] at htrans
          · have hlacks := happ.lacks hbad
            rwa [take_append_drop] at hlacks
        · have hmono : need ((C i).length + n1) ≤ need ((C i).length + p.length) := need_mono (by omega)
          rcases hr.top with htop | htop <;> omega
      · have hmono : need ((C i).length + n1) ≤ need ((C i).length + p.length) := need_mono (by omega)
        have hlack := hbad ((C i).length + n1) (by omega) hn2
        omega
    · have hle := Nat.div_mul_le_self (C i).length bsize
      have hmul := Nat.mul_le_mul_right bsize (not_lt.mp hmax)
      omega

end Xv6Armv8.Mkfs

import Xv6Armv8.ExecLoad
import Xv6Armv8.VmUser

/-! The image that `exec` builds, with the strings of its arguments on the stack. The strings lie one below the other
from the end of the stack page down, each at a multiple of 16, and the array of their addresses below them. A string
that `sys_exec` has fetched is shorter than a page, so the stack pointer does not wrap, and the copies cannot fail: the
arguments are refused just when they do not fit into the page. -/

namespace Xv6Armv8.Exec

open Spec Vm List

variable {m m' t t' : Mem} {pde sz : Nat} {l : List Nat} {c : Content}

/-! ### Strings on a stack -/

/-- The bytes that `n` bytes take on the stack. -/
def room (n : Nat) : Nat := (n + 15) / 16 * 16

/-- The strings of `argv` lie from `sp` down to `sp'`, with their addresses in `us`. -/
inductive Pushed (m : Mem) (pde : Nat) : Nat → List (List UInt8) → List Nat → Nat → Prop
  | nil (sp : Nat) : Pushed m pde sp [] [] sp
  | cons {a sp' : Nat} {s : List UInt8} {argv : List (List UInt8)} {us : List Nat} :
      Holds m pde a (s ++ [0]) → Pushed m pde a argv us sp' →
        Pushed m pde (a + room (s.length + 1)) (s :: argv) (a :: us) sp'

/-- The bytes that strings take on the stack. -/
def stackNeed (argv : List (List UInt8)) : Nat := (argv.map fun s => room (s.length + 1)).sum

section Pushed

variable {sp sp' : Nat} {argv : List (List UInt8)} {us : List Nat}

theorem le_room (n : Nat) : n ≤ room n := by
  unfold room
  omega

section

variable (h : Pushed m pde sp argv us sp')
include h

theorem Pushed.eq : sp = sp' + stackNeed argv := by
  induction h with
  | nil => rfl
  | cons _ _ ih =>
    rw [ih, stackNeed, stackNeed, map_cons, sum_cons]
    omega

theorem Pushed.length : us.length = argv.length := by
  induction h with
  | nil => rfl
  | cons _ _ ih => rw [length_cons, length_cons, ih]

theorem Pushed.congr
    (hsame : ∀ x, sp' ≤ x → userByte m' pde x = userByte m pde x) : Pushed m' pde sp argv us sp' := by
  induction h with
  | nil => exact .nil _
  | cons hs hrest ih =>
    refine .cons (fun i hi => ?_) (ih hsame)
    rw [hsame _ (by have := hrest.eq; omega)]
    exact hs i hi

theorem Pushed.holds (j : Nat) (s : List UInt8) (hs : argv[j]? = some s) :
    ∃ a, us[j]? = some a ∧ Holds m pde a (s ++ [0]) := by
  induction h generalizing j with
  | nil => cases hs
  | cons hfirst _ ih =>
    cases j with
    | zero =>
      obtain rfl := Option.some.inj hs
      exact ⟨_, rfl, hfirst⟩
    | succ j => exact ih j hs

end

/-- Each string with its NUL as a block: its address and its length. -/
def blocks (us : List Nat) (argv : List (List UInt8)) : List (Nat × Nat) := us.zip (argv.map fun s => s.length + 1)

theorem Pushed.bounds (h : Pushed m pde sp argv us sp') :
    ∀ b ∈ blocks us argv, sp' ≤ b.1 ∧ b.1 + b.2 ≤ sp := by
  induction h with
  | nil => exact fun b hb => absurd hb not_mem_nil
  | @cons a sp' s argv us _ hrest ih =>
    have hle := le_room (s.length + 1)
    have heq := hrest.eq
    intro b hb
    rcases mem_cons.mp hb with rfl | hb
    · dsimp only
      omega
    · have := ih b hb
      omega

/-- Two blocks have no address in common. -/
def Separate (x y : Nat × Nat) : Prop := x.1 + x.2 ≤ y.1 ∨ y.1 + y.2 ≤ x.1

theorem Pushed.disjoint (h : Pushed m pde sp argv us sp') : (blocks us argv).Pairwise Separate := by
  induction h with
  | nil => exact .nil
  | cons _ hrest ih => exact .cons (fun b hb => .inr (hrest.bounds b hb).2) ih

end Pushed

/-! ### The image -/

/-- The new address space on the way: its pages came from the free list. -/
structure Mid (m t : Mem) (pde sz : Nat) (l : List Nat) : Prop where
  space : Space t pde l
  count : pgCount sz = l.length
  moves : Moves m t 0 (tables t 3 pde + pages l)

theorem Mid.pool (h : Mid m t pde sz l) (hp : Pool m 0) : Pool t (tables t 3 pde + pages l) :=
  hp.of_conserve h.moves.conserve h.moves.kend

theorem Mid.size_lt (h : Mid m t pde sz l) : sz < 2 ^ 64 := by
  have hlen := h.space.len
  have hcount := h.count
  unfold maxPages at hlen
  unfold pgCount pgSize at hcount
  omega

theorem Mid.written (h : Mid m t pde sz l) (hp : Pool m 0) (hw : Written t t' (pages l)) :
    Mid m t' pde sz l := by
  have hp' : Pool t (pages l + tables t 3 pde) := (h.pool hp).congr (add_comm _ _)
  obtain ⟨hs', ht'⟩ := hw.space h.space hp'
  refine ⟨hs', h.count, h.moves.trans ?_⟩
  rw [ht']
  exact (hw.moves.add _).congr (add_comm _ _) (add_comm _ _)

/-- The outcome of building an image: nothing is taken, or the pages of the new address space are. -/
def Built (m m' : Mem) (r : Option Image) : Prop :=
  match r with
  | none => Moves m m' 0 0
  | some im => ∃ l, Mid m m' im.pde im.size l

variable {E : String → Prop}

theorem bad_spec (h : Mid m t pde sz l) (hp : Pool m 0) :
    Sat (bad pde sz) t (fun r m' => r = none ∧ Built m m' r) E := by
  have hp' := h.pool hp
  have hsz : pgRoundUp sz = l.length * pgSize := pgRoundUp_of_count h.count hp'.length_lt.le
  unfold bad
  exact ((uvmfree_spec h.space hsz hp').err False.elim).bind fun _ m' hmv => ⟨rfl, h.moves.trans hmv⟩

theorem copyout_mid {va : Nat} {src : List UInt8} (h : Mid m t pde sz l) (hp : Pool m 0) :
    Sat (copyout pde va src) t (fun r t' => Mid m t' pde sz l ∧ (0 ≤ r → Holds t' pde va src ∧
      ∀ x, x < va ∨ va + src.length ≤ x → userByte t' pde x = userByte t pde x)) E := by
  have hp' := (h.pool hp).congr (add_comm _ _)
  have ht := h.space.userTable hp'
  refine ((copyout_spec (E := E) h.space hp').and (copyout_exact ht)).mono (fun r t' ⟨hw, n, hstop, hr, hstored⟩ => ?_)
    fun _ he => he.2.elim
  refine ⟨h.written hp hw, fun hr0 => ?_⟩
  obtain rfl : r = 0 := hr.resolve_right (by omega)
  obtain ⟨-, rfl⟩ := hstop.stop.resolve_right fun hbad => hbad.1 rfl
  rw [take_length] at hstored
  exact ⟨fun i hi => hstored.userByte ht hstop.opened hi, fun x hx => hstored.userByte_other ht hstop.opened hx⟩

/-! ### The arguments -/

/-- Strings as `sys_exec` fetches them: each is shorter than a page and has no NUL. -/
def Strings (argv : List (List UInt8)) : Prop := ∀ s ∈ argv, s.length < pgSize ∧ 0 ∉ s

theorem sp_down {sp n : Nat} (h16 : sp % 16 = 0) (hn : n ≤ sp) (hn' : 0 < n) (hlt : sp < 2 ^ 64) :
    u64 (sp + (2 ^ 64 - n)) - u64 (sp + (2 ^ 64 - n)) % 16 + room n = sp ∧
      (u64 (sp + (2 ^ 64 - n)) - u64 (sp + (2 ^ 64 - n)) % 16) % 16 = 0 := by
  unfold u64 room
  omega

theorem pushArgs_spec {base : Nat} (hp : Pool m 0) (hbase : pgSize ≤ base) (argv : List (List UInt8)) : ∀ (sp : Nat) (ustack : List Nat) (t : Mem), Strings argv → Mid m t pde sz l → base ≤ sp →
    sp < 2 ^ 64 → sp % 16 = 0 →
    Sat (pushArgs pde base argv sp ustack) t (fun r t' => Mid m t' pde sz l ∧ ∀ sp' us, r = some (sp', us) →
      base ≤ sp' ∧ sp' % 16 = 0 ∧ (∀ x, sp ≤ x → userByte t' pde x = userByte t pde x) ∧
        ∃ us', us = ustack ++ us' ∧ Pushed t' pde sp argv us' sp') E := by
  induction argv with
  | nil =>
    intro sp ustack t _ h hsp _ h16
    refine ⟨h, fun sp' us he => ?_⟩
    cases he
    exact ⟨hsp, h16, fun _ _ => rfl, [], (append_nil _).symm, .nil _⟩
  | cons s argv ih =>
    intro sp ustack t hstr h hsp hlt h16
    have hs := (hstr s mem_cons_self).1
    obtain ⟨hroom, h16'⟩ := sp_down (n := s.length + 1) h16 (by omega) (Nat.succ_pos _) hlt
    unfold pushArgs
    rw [sat_ite]
    refine ⟨fun _ => ⟨h, fun _ _ he => nomatch he⟩, fun _ => ?_⟩
    dsimp only
    generalize u64 (sp + (2 ^ 64 - (s.length + 1))) - u64 (sp + (2 ^ 64 - (s.length + 1))) % 16 = a at hroom h16' ⊢
    have hle := le_room (s.length + 1)
    rw [sat_ite]
    refine ⟨fun _ => ⟨h, fun _ _ he => nomatch he⟩, fun ha => ?_⟩
    refine (copyout_mid h hp).bind fun r t₁ ⟨h₁, hcopied⟩ => ?_
    rw [sat_ite]
    refine ⟨fun _ => ⟨h₁, fun _ _ he => nomatch he⟩, fun hr => ?_⟩
    obtain ⟨hholds, hother⟩ := hcopied (not_lt.mp hr)
    rw [length_append, length_singleton] at hother
    refine (ih a (ustack ++ [a]) t₁ (fun s' hs' => hstr s' (mem_cons_of_mem _ hs')) h₁ (by omega) (by omega)
      h16').imp fun r t₂ ⟨h₂, hend⟩ => ⟨h₂, fun sp' us he => ?_⟩
    obtain ⟨hsp', h16'', hsame, us', rfl, hpushed⟩ := hend sp' us he
    refine ⟨hsp', h16'', fun x hx => ?_, a :: us', append_assoc _ [a] us', ?_⟩
    · rw [hsame x (by omega), hother x (by omega)]
    · rw [← hroom]
      refine .cons (fun i hi => ?_) hpushed
      rw [hsame _ (by omega)]
      exact hholds i hi

/-- The stack of a program: the strings of `argv` and the array of their addresses, apart from each other on the page
below `size`, which is open to the user and has a closed page under it. -/
structure Laid (m : Mem) (pde size sp : Nat) (argv : List (List UInt8)) : Prop where
  aligned : sp % 16 = 0
  args : ∃ us : List Nat, us.length = argv.length ∧ Holds m pde sp ((us ++ [0]).flatMap (leBytes · 8)) ∧
    (∀ (j : Nat) s, argv[j]? = some s → ∃ a, us[j]? = some a ∧ Holds m pde a (s ++ [0])) ∧
    ((sp, 8 * (argv.length + 1)) :: blocks us argv).Pairwise Separate ∧
    ∀ b ∈ (sp, 8 * (argv.length + 1)) :: blocks us argv, size - pgSize ≤ b.1 ∧ b.1 + b.2 ≤ size
  page : size % pgSize = 0 ∧ 2 * pgSize ≤ size
  stack : ∀ va, size - pgSize ≤ va → va < size → UserPage m pde va
  guard : ∀ va, size - 2 * pgSize ≤ va → va < size - pgSize → ¬UserPage m pde va

theorem Laid.sp_lt {size sp : Nat} {argv : List (List UInt8)} (h : Laid m pde size sp argv) : sp < size := by
  obtain ⟨us, -, -, -, -, hin⟩ := h.args
  have := hin _ mem_cons_self
  dsimp only at this
  omega

theorem Laid.congr {size sp : Nat} {argv : List (List UInt8)} (h : Laid m pde size sp argv)
    (hsame : ∀ va, userByte m' pde va = userByte m pde va) : Laid m' pde size sp argv := by
  have hopen : ∀ va, UserPage m' pde va ↔ UserPage m pde va := fun va => by
    rw [userPage_iff_byte, userPage_iff_byte, hsame]
  have hholds : ∀ {va bs}, Holds m pde va bs → Holds m' pde va bs := fun hb i hi => (hsame _).trans (hb i hi)
  obtain ⟨us, hlen, harr, hstr, hsep, hin⟩ := h.args
  refine ⟨h.aligned, ⟨us, hlen, hholds harr, fun j s hs => ?_, hsep, hin⟩, h.page,
    fun va hlo hhi => (hopen va).mpr (h.stack va hlo hhi), fun va hlo hhi hu => h.guard va hlo hhi ((hopen va).mp hu)⟩
  obtain ⟨a, ha, hb⟩ := hstr j s hs
  exact ⟨a, ha, hholds hb⟩

/-- The arguments fit into the stack page. -/
def Fits (argv : List (List UInt8)) : Prop := stackNeed argv + room (8 * (argv.length + 1)) ≤ pgSize

theorem length_le_stackNeed (argv : List (List UInt8)) : 16 * argv.length ≤ stackNeed argv := by
  induction argv with
  | nil => exact Nat.zero_le _
  | cons s argv ih =>
    have hroom : 16 ≤ room (s.length + 1) := by
      unfold room
      omega
    rw [stackNeed, map_cons, sum_cons, length_cons]
    unfold stackNeed at ih
    omega

/-- What an image is, if there is one. -/
def Ready (m : Mem) (argv : List (List UInt8)) (r : Option Image) : Prop :=
  ∀ im, r = some im → im.argc = argv.length ∧ Laid m im.pde im.size im.sp argv ∧ Fits argv

theorem ready_none {argv : List (List UInt8)} : Ready m' argv none := fun _ he => nomatch he

theorem length_words (us : List Nat) : (us.flatMap (leBytes · 8)).length = 8 * us.length := by
  induction us with
  | nil => rfl
  | cons a us ih =>
    rw [flatMap_cons, length_append, ih, length_cons, leBytes, length_map, length_range]
    omega

theorem laid_of {argv : List (List UInt8)} {n sp a : Nat} {us : List Nat} (hs : Space m pde l) (hlen : l.length = n + 2)
    (hclosed : l.getD n 0 &&& apUser = 0) (hopen : l.getD (n + 1) 0 &&& apUser ≠ 0)
    (hpushed : Pushed m pde ((n + 2) * pgSize) argv us sp) (hholds : Holds m pde a ((us ++ [0]).flatMap (leBytes · 8)))
    (h16 : a % 16 = 0) (hroom : a + room ((us.length + 1) * 8) = sp) (ha : (n + 1) * pgSize ≤ a) :
    Laid m pde ((n + 2) * pgSize) a argv ∧ Fits argv := by
  have hle := le_room ((us.length + 1) * 8)
  have htop := hpushed.eq
  have hus := hpushed.length
  have hguard : (n + 1) * pgSize = n * pgSize + pgSize := Nat.succ_mul n pgSize
  have hbase : (n + 2) * pgSize = (n + 1) * pgSize + pgSize := Nat.succ_mul (n + 1) pgSize
  have hdiv : ∀ k va, k * pgSize ≤ va → va < k * pgSize + pgSize → va / pgSize = k := fun k va hlo hhi => by
    unfold pgSize at hlo hhi ⊢
    omega
  refine ⟨⟨h16, ⟨us, hus, hholds, hpushed.holds, .cons (fun b hb => .inl ?_) hpushed.disjoint, fun b hb => ?_⟩,
    ⟨Nat.mul_mod_left .., by omega⟩, fun va hlo hhi => ?_, fun va hlo hhi hu => ?_⟩, ?_⟩
  · have := hpushed.bounds b hb
    dsimp only
    omega
  · rcases mem_cons.mp hb with rfl | hb
    · dsimp only
      omega
    · have := hpushed.bounds b hb
      omega
  · have hva := hdiv (n + 1) va (by omega) (by omega)
    exact hs.userPage (by omega) (by rwa [hva])
  · have hva := hdiv n va (by omega) (by omega)
    have huser := hu.user
    rw [hva, hs.entry n (by have := hs.len; omega)] at huser
    exact huser hclosed
  · unfold Fits
    rw [← hus, Nat.mul_comm 8]
    omega

theorem bad_ready {argv : List (List UInt8)} (h : Mid m t pde sz l) (hp : Pool m 0) :
    Sat (bad pde sz) t (fun r m' => Built m m' r ∧ Ready m' argv r) E :=
  (bad_spec h hp).imp fun _ _ ⟨hr, hb⟩ => ⟨hb, hr ▸ ready_none⟩

theorem array_spec {argv : List (List UInt8)} {entry n sp : Nat} {us : List Nat}
    (h : Mid m t pde ((n + 2) * pgSize) l) (hp : Pool m 0) (hlen : l.length = n + 2)
    (hclosed : l.getD n 0 &&& apUser = 0) (hopen : l.getD (n + 1) 0 &&& apUser ≠ 0)
    (hpushed : Pushed t pde ((n + 2) * pgSize) argv us sp) (hsp : (n + 1) * pgSize ≤ sp) (h16 : sp % 16 = 0) :
    Sat (let sp1 := u64 (sp + (2 ^ 64 - (us.length + 1) * 8))
        let sp := sp1 - sp1 % 16
        if sp < (n + 1) * pgSize then bad pde ((n + 2) * pgSize)
        else do
          if (← copyout pde sp ((us ++ [0]).flatMap (leBytes · 8))) < 0 then bad pde ((n + 2) * pgSize)
          else return some ⟨pde, (n + 2) * pgSize, entry, sp, us.length⟩) t
      (fun r m' => Built m m' r ∧ Ready m' argv r) E := by
  have htop := hpushed.eq
  have hcnt := length_le_stackNeed argv
  have hus := hpushed.length
  have hmax := h.space.len
  have hsmall : (us.length + 1) * 8 ≤ sp := by
    unfold pgSize at hsp htop
    omega
  have hlt : sp < 2 ^ 64 := by
    unfold maxPages at hmax
    unfold pgSize at htop
    omega
  obtain ⟨hroom, h16'⟩ := sp_down h16 hsmall (by omega) hlt
  dsimp only
  generalize u64 (sp + (2 ^ 64 - (us.length + 1) * 8)) - u64 (sp + (2 ^ 64 - (us.length + 1) * 8)) % 16 = a
    at hroom h16' ⊢
  rw [sat_ite]
  refine ⟨fun _ => bad_ready h hp, fun ha => ?_⟩
  refine (copyout_mid h hp).bind fun r t₁ ⟨h₁, hcopied⟩ => ?_
  rw [sat_ite]
  refine ⟨fun _ => bad_ready h₁ hp, fun hr => ⟨⟨_, h₁⟩, fun im he => ?_⟩⟩
  cases he
  obtain ⟨hholds, hsame⟩ := hcopied (not_lt.mp hr)
  have hle := le_room ((us.length + 1) * 8)
  rw [length_words, length_append, length_singleton] at hsame
  have hpushed₁ := hpushed.congr fun x hx => hsame x (by omega)
  exact ⟨hus, laid_of h₁.space hlen hclosed hopen hpushed₁ hholds h16' hroom (not_lt.mp ha)⟩

theorem pgCount_mul (n : Nat) : pgCount (n * pgSize) = n := by
  unfold pgCount pgSize
  omega

theorem stack_spec {entry : Nat} {argv : List (List UInt8)} (hstr : Strings argv) (h : Mid m t pde sz l)
    (hp : Pool m 0) :
    Sat (do
        let sz := pgRoundUp sz
        let sz1 ← uvmalloc pde sz (u64 (sz + 2 * pgSize)) user4kPageRwXn
        if sz1 = 0 then bad pde sz
        else
          uvmclear pde (sz1 - 2 * pgSize)
          match ← pushArgs pde (sz1 - pgSize) argv sz1 [] with
          | none => bad pde sz1
          | some (sp0, ustack) =>
            let sp1 := u64 (sp0 + (2 ^ 64 - (ustack.length + 1) * 8))
            let sp := sp1 - sp1 % 16
            if sp < sz1 - pgSize then bad pde sz1
            else if (← copyout pde sp ((ustack ++ [0]).flatMap (leBytes · 8))) < 0 then bad pde sz1
            else return some ⟨pde, sz1, entry, sp, ustack.length⟩) t
      (fun r m' => Built m m' r ∧ Ready m' argv r) E := by
  have hp' := h.pool hp
  have hlen : l.length < maxPages := hp'.length_lt
  have hsz : pgRoundUp sz = l.length * pgSize := pgRoundUp_of_count h.count hlen.le
  have hnew : u64 (l.length * pgSize + 2 * pgSize) = (l.length + 2) * pgSize := by
    unfold maxPages at hlen
    unfold u64 pgSize
    omega
  dsimp only
  rw [hsz, hnew, sat_bind]
  refine (uvmalloc_spec h.space hp' isFlags_rwXn (pgRoundUp_mul hlen.le) ?_ ?_).mono ?_ fun _ h => h.elim
  · unfold pgSize
    omega
  · unfold maxPages at hlen
    unfold pgSize
    omega
  intro r t₁ hext
  cases hext with
  | full hs₁ hmv₁ _ =>
    rw [if_pos rfl]
    exact bad_ready ⟨hs₁, pgCount_mul _, h.moves.trans (hmv₁.add _)⟩ hp
  | ok l' hs₁ hfresh _ hcount hmv₁ _ =>
    have hcount' : (l ++ l').length = l.length + 2 := by rw [hcount, pgCount_mul]
    have hmid₁ : Mid m t₁ pde ((l.length + 2) * pgSize) (l ++ l') :=
      ⟨hs₁, by rw [pgCount_mul, hcount'], (h.moves.trans (hmv₁.add _)).congr rfl
        (by rw [pages_append]; abel)⟩
    have hguard : (l.length + 2) * pgSize - 2 * pgSize = l.length * pgSize := by
      rw [Nat.add_mul, Nat.add_sub_cancel]
    rw [if_neg (by unfold pgSize; omega), hguard, sat_bind]
    have hp₁ := hmid₁.pool hp
    refine (uvmclear_spec hs₁ (hp₁.mono (Multiset.le_add_right _ _)) (by omega)).mono ?_ fun _ h => h.elim
    rintro _ t₂ ⟨l₂, hs₂, hlen₂, hpages₂, ht₂, -, hother, hclosed, hmv₂⟩
    have hmid₂ : Mid m t₂ pde ((l.length + 2) * pgSize) l₂ :=
      ⟨hs₂, by rw [pgCount_mul, hlen₂, hcount'], hmid₁.moves.trans ((hmv₂.add _).congr rfl
        (by rw [hpages₂]))⟩
    have hopen : l₂.getD (l.length + 1) 0 &&& apUser ≠ 0 := by
      rw [hother _ (by omega), Vm.getD_append_right (by omega), getD_eq_getElem _ _ (by simp at hcount'; omega)]
      exact userPages_fresh (by decide) hfresh _ (getElem_mem _)
    have hbase : (l.length + 2) * pgSize - pgSize = (l.length + 1) * pgSize := by
      rw [show l.length + 2 = l.length + 1 + 1 by omega, Nat.succ_mul (l.length + 1), Nat.add_sub_cancel]
    rw [hbase]
    refine (pushArgs_spec hp (by unfold pgSize; omega) argv _ _ t₂ hstr hmid₂ (by unfold pgSize; omega) ?_
      (by unfold pgSize; omega)).bind fun r t₃ ⟨hmid₃, hend⟩ => ?_
    · unfold maxPages at hlen
      unfold pgSize
      omega
    cases r with
    | none => exact bad_ready hmid₃ hp
    | some r =>
      obtain ⟨sp, us⟩ := r
      obtain ⟨hsp, h16, -, us', hus', hpushed⟩ := hend _ _ rfl
      rw [nil_append] at hus'
      subst hus'
      exact array_spec hmid₃ hp (by rw [hlen₂, hcount']) hclosed hopen hpushed hsp h16

/-- **Building an image panics exactly where a segment of the file is not backed.** Otherwise the pages
of the new address space come from the free list, or none do. -/
theorem image_spec {argv : List (List UInt8)} (hstr : Strings argv) (hp : Pool m 0) :
    Sat (image c argv) m (fun r m' => Loads c m.freelist.length ∧ Built m m' r ∧ Ready m' argv r)
      fun e => e = noAddress ∧ ¬Loads c m.freelist.length := by
  have hnone : Built m m none ∧ Ready m argv none := ⟨Moves.refl m 0, ready_none⟩
  unfold image
  rw [sat_ite]
  refine ⟨fun hstr => ⟨fun h => absurd h hstr, hnone⟩, fun hread => ?_⟩
  rw [not_not] at hread
  rw [sat_ite]
  refine ⟨fun hmagic => ⟨fun _ h => absurd h hmagic, hnone⟩, fun hmagic => ?_⟩
  rw [not_not] at hmagic
  rw [sat_bind]
  refine (uvmcreate_spec 0).mono ?_ fun _ h => h.elim
  rintro r m₁ ⟨hnil, hsome⟩
  cases r with
  | none =>
    obtain ⟨hnil, rfl⟩ := hnil rfl
    refine ⟨fun _ _ hpos => ?_, hnone⟩
    rw [hnil] at hpos
    exact absurd hpos (Nat.lt_irrefl 0)
  | some pde =>
    obtain ⟨hs₁, ht₁, htight, hfree, hmv₁⟩ := hsome pde rfl
    have hmv₁' : Moves m m₁ 0 (tables m₁ 3 pde + pages []) :=
      hmv₁.congr rfl (by rw [ht₁, pages_nil, zero_add, add_zero])
    have hload : Loading m₁ pde 0 [] :=
      ⟨hs₁, by simp [UserPages], htight, by decide, by decide,
        hp.of_conserve hmv₁'.conserve hmv₁'.kend⟩
    have hloads : Loads c m.freelist.length ↔ Backed c c.phnum (u32 c.phoff) 0 m₁.freelist.length := by
      rw [hfree, length_cons]
      simp only [Loads, hread, hmagic, true_implies, Nat.succ_pos, Nat.add_sub_cancel]
    rw [hloads]
    dsimp only
    rw [sat_bind]
    refine (loadHeaders_spec c.phnum _ 0 [] m₁ hload).imp ?_
    rintro ⟨sz, ok⟩ m₂ ⟨hback, l₂, hs₂, hcount₂, hmv₂⟩
    have hmid : Mid m m₂ pde sz l₂ := ⟨hs₂, hcount₂, hmv₁'.trans hmv₂⟩
    dsimp only
    rw [sat_ite]
    refine ⟨fun _ => ?_, fun _ => ?_⟩
    · exact (bad_ready hmid hp).imp fun _ _ h => ⟨hback, h⟩
    · exact (stack_spec hstr hmid hp).imp fun _ _ h => ⟨hback, h⟩

end Xv6Armv8.Exec

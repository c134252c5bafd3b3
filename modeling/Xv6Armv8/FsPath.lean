
import Xv6Armv8.FsAt

/-! Path resolution. The elements of a path are its maximal runs without a slash, cut to `DIRSIZ` bytes; a path
means the fold of the directories' tables over its elements. `namex`, which shares a cursor with `skipelem` and
gives a reference up for each that it takes, computes this fold and keeps one reference, to its result. -/

namespace Xv6Armv8.Fs

open Spec FileTable Function List Multiset Option

/-! ### The elements of a path -/

/-- The maximal runs of bytes without a slash, each cut to `DIRSIZ` bytes. -/
def elements (path : List UInt8) : List Name :=
  ((path.splitOnP (· = slash)).filter (· ≠ [])).map fun run => run.take dirsiz

variable {path rest : List UInt8} {name : Name}

theorem elements_slash : elements (slash :: path) = elements path := by
  unfold elements
  rw [splitOnP_cons_eq_if_modifyHead, if_pos (by simp)]
  rfl

theorem elements_dropWhile : elements (path.dropWhile (· = slash)) = elements path := by
  induction path with
  | nil => rfl
  | cons b path ih =>
    by_cases hb : b = slash
    · rw [hb, dropWhile_cons_of_pos (by simp), ih, elements_slash]
    · rw [dropWhile_cons_of_neg (by simpa using hb)]

theorem elements_run (h : path.takeWhile (· ≠ slash) ≠ []) :
    elements path = (path.takeWhile (· ≠ slash)).take dirsiz :: elements (path.dropWhile (· ≠ slash)) := by
  have hrun : ∀ b ∈ path.takeWhile (· ≠ slash), decide (b = slash) = false := by
    intro b hb
    simpa using mem_takeWhile_imp hb
  have hsplit := takeWhile_append_dropWhile (p := (· ≠ slash)) (l := path)
  cases hrest : path.dropWhile (· ≠ slash) with
  | nil =>
    rw [hrest, append_nil] at hsplit
    rw [hsplit] at hrun h ⊢
    unfold elements
    rw [splitOnP_eq_singleton hrun]
    simp [h]
  | cons b rest =>
    have hb : b = slash := by
      have hhead := List.head?_dropWhile_not (· ≠ slash) path
      rw [hrest] at hhead
      simpa using hhead
    rw [hb, elements_slash]
    rw [hrest, hb] at hsplit
    generalize path.takeWhile (· ≠ slash) = run at *
    rw [← hsplit]
    unfold elements
    rw [splitOnP_append_cons_of_forall_mem hrun slash (by simp)]
    simp [h]

theorem skipelem_none (h : skipelem path = none) : elements path = [] := by
  unfold skipelem at h
  dsimp only at h
  split at h
  · next hnil => rw [← elements_dropWhile, hnil]; rfl
  · cases h

theorem head_ne_slash {b : UInt8} (h : path.dropWhile (· = slash) = b :: rest) : b ≠ slash := by
  have hhead := List.head?_dropWhile_not (· = slash) path
  rw [h] at hhead
  simpa using hhead

theorem elements_eq_nil : elements (path.dropWhile (· = slash)) = [] ↔ path.dropWhile (· = slash) = [] := by
  constructor
  · intro hnil
    cases hs : path.dropWhile (· = slash) with
    | nil => rfl
    | cons b l =>
      have hb := head_ne_slash hs
      rw [hs, elements_run (by simp [hb])] at hnil
      cases hnil
  · intro hnil
    rw [hnil]
    rfl

/-- **`skipelem` takes the first element.** -/
theorem skipelem_some (h : skipelem path = some (name, rest)) :
    elements path = name :: elements rest ∧ rest.length < path.length ∧ (rest = [] ↔ elements rest = []) := by
  unfold skipelem at h
  dsimp only at h
  split at h
  · cases h
  · next hne =>
    obtain ⟨hname, hrest⟩ := Prod.mk.inj (some.inj h)
    have hdrop := (dropWhile_suffix (· = slash) (l := path)).length_le
    cases hs : path.dropWhile (· = slash) with
    | nil => exact absurd hs hne
    | cons b l =>
      have hb := head_ne_slash hs
      have hrun : (b :: l).takeWhile (· ≠ slash) ≠ [] := by simp [hb]
      rw [hs] at hname hrest hdrop
      have hlen := (dropWhile_suffix (· = slash) (l := (b :: l).dropWhile (· ≠ slash))).length_le
      have hlt : ((b :: l).dropWhile (· ≠ slash)).length ≤ l.length := by
        rw [dropWhile_cons_of_pos (by simpa using hb)]
        exact (dropWhile_suffix _).length_le
      rw [hrest] at hlen
      rw [length_cons] at hdrop
      refine ⟨?_, by omega, ?_⟩
      · rw [← elements_dropWhile, hs, elements_run hrun, hname, ← hrest, elements_dropWhile]
      · rw [← hrest]
        exact elements_eq_nil.symm

/-! ### What a path means -/

/-- One step down: the inode that the directory has for the name. -/
def enter (N : Nat → Option Node) (i : Nat) (name : Name) : Option Nat := do
  let nd ← N i
  if nd.type = tDir then (nd.lookup name).map Prod.fst else none

/-- The inode that a list of names leads to. -/
def resolve (N : Nat → Option Node) (i : Nat) (names : List Name) : Option Nat := names.foldlM (enter N) i

def isDirectory (N : Nat → Option Node) (i : Nat) : Bool := (N i).any fun nd => nd.type = tDir

/-- The directory that all names but the last lead to, and the last name. -/
def resolveParent (N : Nat → Option Node) (i : Nat) (names : List Name) : Option (Nat × Name) := do
  let name ← names.getLast?
  let dir ← resolve N i names.dropLast
  if isDirectory N dir then some (dir, name) else none

/-- What `namex` finds, element by element. -/
def follow (N : Nat → Option Node) (parent : Bool) : Nat → Name → List Name → Option (Nat × Name)
  | i, name, [] => if parent then none else some (i, name)
  | i, _, name :: names =>
    match N i with
    | none => none
    | some nd =>
      if nd.type ≠ tDir then none
      else if parent = true ∧ names = [] then some (i, name)
      else
        match nd.lookup name with
        | none => none
        | some v => follow N parent v.1 name names

variable {N : Nat → Option Node} {i : Nat} {names : List Name}

theorem follow_all : (follow N false i name names).map Prod.fst = resolve N i names := by
  induction names generalizing i name with
  | nil => rfl
  | cons e names ih =>
    unfold follow resolve
    rw [foldlM_cons]
    unfold enter
    cases hi : N i with
    | none => rfl
    | some nd =>
      by_cases hdir : nd.type = tDir
      · dsimp only
        rw [if_neg (not_not.mpr hdir), if_neg fun h => Bool.false_ne_true h.1]
        simp only [bind_eq_bind, bind_some, if_pos hdir]
        cases hl : nd.lookup e with
        | none => rfl
        | some v => exact ih
      · dsimp only
        rw [if_pos hdir]
        simp only [bind_eq_bind, bind_some, if_neg hdir]
        rfl

theorem follow_parent : follow N true i name names = resolveParent N i names := by
  induction names generalizing i name with
  | nil => rfl
  | cons e names ih =>
    unfold follow
    cases names with
    | nil =>
      show _ = if isDirectory N i then some (i, e) else none
      unfold isDirectory
      cases hi : N i with
      | none => rfl
      | some nd => simp
    | cons e' names =>
      have hstep : resolveParent N i (e :: e' :: names) = (enter N i e).bind fun j =>
          resolveParent N j (e' :: names) := by
        unfold resolveParent resolve
        rw [List.getLast?_cons_cons, dropLast_cons_cons, foldlM_cons]
        cases List.getLast? (e' :: names) with
        | none => cases enter N i e <;> rfl
        | some last => cases enter N i e <;> rfl
      rw [hstep]
      unfold enter
      cases hi : N i with
      | none => rfl
      | some nd =>
        by_cases hdir : nd.type = tDir
        · dsimp only
          rw [if_neg (not_not.mpr hdir), if_neg fun h => cons_ne_nil _ _ h.2]
          simp only [bind_eq_bind, bind_some, if_pos hdir]
          cases hl : nd.lookup e with
          | none => rfl
          | some v => exact ih
        · dsimp only
          rw [if_pos hdir]
          simp only [bind_eq_bind, bind_some, if_neg hdir]
          rfl

/-! ### namex -/

/-- Every name of every directory, and the root, is an inode that is allocated. -/
structure Tree (N : Nat → Option Node) : Prop where
  root : N rootino ≠ none
  named : ∀ i nd name v, N i = some nd → nd.type = tDir → nd.lookup name = some v → N v.1 ≠ none

variable {c : Ctx} {W : Prop} {T : Multiset Nat} {L : Finset Nat} {ν : Nat → Nat} {s t u : State}
  {p k ip j : Nat} {parent : Bool}

theorem Got.leave (h : Got c T ∅ ν N s ip i t) (hu : At c T ∅ (update ν ip i) N u) (hs : Still t u) :
    At c T ∅ ν N u ∧ Still s u :=
  ⟨hu.renumber fun _ hj => (h.num hj).symm, h.still.trans hs⟩

theorem Got.move (h : Got c T ∅ ν N s ip i t) (hg : Got c (ip ::ₘ T) L (update ν ip i) N t k j u)
    {w : State} (hw : At c (k ::ₘ T) ∅ (update (update ν ip i) k j) N w) (hs : Still u w) :
    Got c T ∅ ν N s k j w := by
  refine ⟨hw.renumber fun x hx => ?_, h.still.trans (hg.still.trans hs), fun hk => ?_, fun nd hnd h0 => ?_⟩
  · by_cases hxk : x = k
    · rw [hxk, update_self, update_self]
    · rw [update_of_ne hxk, update_of_ne hxk]
      exact (h.num ((held_cons hx).resolve_left hxk)).symm
  · rw [← hg.same (hk.cons ip), h.num hk]
  · have hheld := hg.keep nd hnd h0
    rcases held_cons hheld with rfl | hk
    · -- the entry that is left is the one that is taken
      have hj : i = j := by
        have hsame := hg.same hheld
        rwa [update_self] at hsame
      exact h.keep nd (by rwa [hj]) h0
    · exact hk

/-- The lock and the reference to a directory are given up for a reference that was found in it. -/
theorem Got.switch {w : State} (h : Got c T ∅ ν N s ip i t) (hs : Still t w)
    (hg : Got c (ip ::ₘ T) {ip} (update ν ip i) N w k j u) :
    Sat (iunlockput ip) u (fun _ x => Got c T ∅ ν N s k j x) fun _ => False := by
  have hself : Held c (ip ::ₘ T) ip := .inl (Multiset.mem_cons_self ip T)
  have hu : At c (ip ::ₘ k ::ₘ T) {ip} (update (update ν ip i) k j) N u := by
    rw [cons_swap]
    exact hg.now
  have hkeep : ∀ nd, N (update (update ν ip i) k j ip) = some nd → nd.nlink = 0 → Held c (k ::ₘ T) ip := by
    intro nd hnd h0
    rw [hg.num hself] at hnd
    exact (h.keep' nd hnd h0).cons k
  refine (iunlockput_only hu hkeep).imp fun _ x hx => ?_
  exact h.move ⟨hg.now, hs.trans hg.still, hg.same, hg.keep⟩ hx.1 hx.2

/-- The result of `namex`: a reference to the inode that is found, or nothing. -/
def Names (c : Ctx) (T : Multiset Nat) (ν : Nat → Nat) (N : Nat → Option Node) (s : State)
    (target : Option (Nat × Name)) (r : Option (Nat × Name)) (t : State) : Prop :=
  match target with
  | none => r = none ∧ At c T ∅ ν N t ∧ Still s t
  | some (i, name) => ∃ k, r = some (k, name) ∧ Got c T ∅ ν N s k i t

theorem Names.none_of (h : At c T ∅ ν N t ∧ Still s t) : Names c T ν N s none none t := ⟨rfl, h⟩

theorem namexLoop_at (hT : W → Tree N) : ∀ turns ip i name path t, List.length path < turns →
    Got c T ∅ ν N s ip i t → (W → N i ≠ none) →
    Sat (namexLoop parent turns ip name path) t (Names c T ν N s (follow N parent i name (elements path)))
      (Stop c W (T.card + 1)) := by
  intro turns
  induction turns with
  | zero => exact fun ip i name path t hlt => absurd hlt (Nat.not_lt_zero _)
  | succ turns ih =>
    intro ip i name path t hlt h hi
    unfold namexLoop
    cases hskip : skipelem path with
    | none =>
      dsimp only
      rw [skipelem_none hskip, sat_ite]
      unfold follow
      constructor
      · rintro rfl
        refine ((iput_keep h.now sub_empty h.keep').err False.elim).bind fun _ u hu => ?_
        exact Names.none_of (h.leave hu.1 hu.2)
      · intro hparent
        rw [if_neg hparent]
        exact ⟨ip, rfl, h⟩
    | some x =>
      obtain ⟨name', rest⟩ := x
      obtain ⟨helems, hlen, hend⟩ := skipelem_some hskip
      have hself : Held c (ip ::ₘ T) ip := .inl (Multiset.mem_cons_self ip T)
      dsimp only
      rw [helems]
      refine (ilock_only h.now hself (by rwa [update_self])).bind fun _ u hu => ?_
      obtain ⟨hnode, hu, hstill⟩ := hu
      rw [update_self] at hnode
      obtain ⟨nd, hnd⟩ := ne_none_iff_exists'.mp hnode
      have hnd' : N (update ν ip i ip) = some nd := by rwa [update_self]
      have htype := (hu.fields (Finset.mem_singleton_self ip) hnd').1
      -- every way out of the turn but one gives the lock and the reference back
      have hleave : ∀ w, At c (ip ::ₘ T) {ip} (update ν ip i) N w → Still t w →
          Sat (do iunlockput ip; return (none : Option (Nat × Name))) w (Names c T ν N s none)
            (Stop c W (T.card + 1)) := by
        intro w hw hs
        refine ((iunlockput_only hw h.keep').err False.elim).bind fun _ x hx => ?_
        exact Names.none_of (h.leave hx.1 (hs.trans hx.2))
      unfold follow
      rw [sat_bind, sat_get, hnd, htype, sat_ite]
      dsimp only
      constructor
      · intro hdir
        rw [if_pos hdir]
        exact hleave u hu hstill
      · intro hdir
        rw [if_neg hdir, sat_ite]
        have hdir' : nd.type = tDir := not_not.mp hdir
        constructor
        · intro hlast
          rw [if_pos ⟨hlast.1, hend.mp hlast.2⟩]
          refine ((iunlock_only hu).err False.elim).bind fun _ w hw => ?_
          exact ⟨ip, rfl, hw.1, h.still.trans (hstill.trans hw.2), h.same, h.keep⟩
        · intro hlast
          rw [if_neg fun h => hlast ⟨h.1, hend.mpr h.2⟩, sat_bind,
            sat_dirlookup (hu.dirAt (Finset.mem_singleton_self ip) hnd' hdir')]
          cases hl : nd.lookup name' with
          | none => exact hleave u hu hstill
          | some v =>
            dsimp only
            rw [hu.disk.dev ip (hu.live (Finset.mem_singleton_self ip)).1]
            have hget : Sat (iget rootdev v.1) u _ (Stop c W (ip ::ₘ T).card) := iget_at hu
            rw [card_cons] at hget
            refine hget.imp fun next w hw => ?_
            refine ((h.switch hstill hw).err False.elim).bind fun _ x hx => ?_
            exact ih next v.1 name' rest x (by omega) hx fun hw => (hT hw).named i nd name' v hnd hdir' hl

/-- The inode that the path starts from. -/
def startOf (c : Ctx) (ν : Nat → Nat) (p : Nat) (path : List UInt8) : Nat :=
  if path.head? = some slash then rootino else ν (((c.proc p).cwd).getD 0)

theorem namex_at (h : At c T ∅ ν N s) (hp : c.HasCwd p) (hT : W → Tree N ∧ (c.proc p).cwd ≠ none) :
    Sat (namex p path parent) s (Names c T ν N s (follow N parent (startOf c ν p path) [] (elements path)))
      (Stop c W (T.card + 1)) := by
  unfold namex namexStart cwd startOf
  rw [sat_bind, sat_ite]
  constructor
  · intro hslash
    have hget : Sat (iget rootdev rootino) s _ (Stop c W T.card) := iget_at h
    refine hget.mono (fun k t ht => ?_) fun _ he => he.mono (Nat.le_succ _)
    rw [if_pos hslash]
    exact namexLoop_at (fun hw => (hT hw).1) _ _ _ _ _ t (Nat.lt_succ_self _) ht fun hw => (hT hw).1.root
  · intro hslash
    rw [if_neg hslash, sat_bind, sat_bind, sat_get, h.ok.proc]
    cases hcwd : (c.proc p).cwd with
    | none => exact .of_tree (by simp [noInodes]) fun hw => (hT hw).2 hcwd
    | some k =>
      dsimp only
      rw [sat_pure]
      refine ((idup_at h (.inr (hp k hcwd))).err False.elim).bind fun _ t ht => ?_
      exact namexLoop_at (fun hw => (hT hw).1) _ _ _ _ _ t (Nat.lt_succ_self _) ht fun _ => h.named k (hp k hcwd)

/-! ### namei and nameiparent -/

/-- The references are those of `s` and one to what has been found. -/
def OneMore (s : State) (r : Option Nat) (t : State) : Prop :=
  ∀ k, (t.itable k).ref = (s.itable k).ref + if r = some k then 1 else 0

theorem At.refs_eq (h : At c T ∅ ν N s) (ht : At c T ∅ ν N t) : OneMore s none t := by
  intro k
  rw [ht.ok.refs, h.ok.refs, if_neg (by simp), add_zero]

theorem Got.refs_eq (h : At c T ∅ ν N s) (ht : Got c T ∅ ν N s k i t) : OneMore s (some k) t := by
  intro j
  rw [ht.now.ok.refs, h.ok.refs, count_cons, ← add_assoc]
  congr 1
  by_cases hj : j = k
  · rw [if_pos hj, if_pos (by rw [hj])]
  · rw [if_neg hj, if_neg fun heq => hj (some_inj.mp heq).symm]

/-- The inode numbers that a path lookup has found, with the table of inodes all that changes. -/
theorem Names.spec {target r : Option (Nat × Name)} (h : At c T ∅ ν N s) (hr : Names c T ν N s target r t) :
    r.map (fun x => ((t.itable x.1).inum, x.2)) = target ∧ Still s t ∧ OneMore s (r.map Prod.fst) t := by
  cases target with
  | none =>
    obtain ⟨rfl, ht, hs⟩ := hr
    exact ⟨rfl, hs, h.refs_eq ht⟩
  | some x =>
    obtain ⟨k, rfl, hgot⟩ := hr
    have hinum : (t.itable k).inum = x.1 := by
      rw [hgot.now.inum k (.inl (Multiset.mem_cons_self k T)), update_self]
    refine ⟨?_, hgot.still, hgot.refs_eq h⟩
    show some ((t.itable k).inum, x.2) = some x
    rw [hinum]

theorem Settled.used_eq (h : Settled s) : (ctxOf True s.ftable s.proc).used = s.inUse := by
  unfold Ctx.used State.inUse
  congr 1
  refine Finset.filter_congr fun k _ => ?_
  have hk := h.inv.ok.refs k
  have hnonneg := (ctxOf True s.ftable s.proc).nonneg k
  rw [count_zero] at hk
  omega

/-- The inode that a path of the process starts from. -/
def State.startOf (s : State) (p : Nat) (path : List UInt8) : Nat :=
  if path.head? = some slash then rootino else (s.itable (((s.proc p).cwd).getD 0)).inum

/-- **Path resolution follows its grammar.** In a directory tree `namei` is the fold of directory lookup over
the elements of the path, and `nameiparent` finds the directory of the last one; nothing but the table of
inodes changes, and there one reference is added, to the result. The only panic is that of a full table. -/
theorem paths_follow_grammar (h : Settled s) (htree : Tree s.node) (hp : p < nproc)
    (hrun : (s.proc p).state = .running) (path : List UInt8) :
    Sat (namei p path) s (fun r t =>
        r.map (fun k => (t.itable k).inum) = resolve s.node (s.startOf p path) (elements path) ∧
        Still s t ∧ OneMore s r t) (fun e => e = noInodes ∧ ninode ≤ s.inUse + 1) ∧
    Sat (nameiparent p path) s (fun r t =>
        r.map (fun x => ((t.itable x.1).inum, x.2)) = resolveParent s.node (s.startOf p path) (elements path) ∧
        Still s t ∧ OneMore s (r.map Prod.fst) t) (fun e => e = noInodes ∧ ninode ≤ s.inUse + 1) := by
  obtain ⟨k, hk⟩ := h.inv.tidy.home p hrun
  have hcwd : (s.proc p).cwd ≠ none := by
    rw [hk]
    exact some_ne_none k
  have hnamex : ∀ parent, Sat (namex p path parent) s _ (Stop _ True _) := fun parent =>
    namex_at h.start (hasCwd_of_lt hp) fun _ => ⟨htree, hcwd⟩
  have hstop : ∀ e, Stop (ctxOf True s.ftable s.proc) True ((0 : Multiset Nat).card + 1) e →
      e = noInodes ∧ ninode ≤ s.inUse + 1 := by
    intro e he
    rw [card_zero, Nat.zero_add] at he
    rw [← h.used_eq]
    exact ⟨he.only trivial, he.full (he.only trivial)⟩
  constructor
  · unfold namei
    rw [sat_bind]
    refine (hnamex false).mono (fun r t ht => ?_) hstop
    obtain ⟨hr, hstill, hrefs⟩ := ht.spec h.start
    refine ⟨?_, hstill, hrefs⟩
    have hfollow : (follow s.node false (s.startOf p path) [] (elements path)).map Prod.fst = _ := follow_all
    refine Eq.trans ?_ ((congrArg (Option.map Prod.fst) hr).trans hfollow)
    rw [Option.map_map, Option.map_map]
    rfl
  · refine (hnamex true).mono (fun r t ht => ?_) hstop
    rw [follow_parent] at ht
    exact ht.spec h.start

theorem chainImage_tree : Tree (boot chainImage).node := by
  have hall : ∀ i, i < 53 → ∀ j, j < ((boot chainImage).nodeOf i).count →
      (((boot chainImage).nodeOf i).entry j).inum ≠ 0 →
      ((boot chainImage).dinode (((boot chainImage).nodeOf i).entry j).inum).type ≠ 0 := by decide +kernel
  refine ⟨?_, fun i nd name v hi _ hl => ?_⟩
  · show (if (chainImage.dinode rootino).type = 0 then none else some _) ≠ none
    rw [if_neg (by decide)]
    exact some_ne_none _
  · obtain ⟨ht, rfl⟩ := node_some hi
    have hlt : i < 53 := by
      by_contra hlt
      refine ht ?_
      show (if 1 ≤ i ∧ i ≤ 52 then _ else noDinode).type = 0
      rw [if_neg (by omega)]
      rfl
    obtain ⟨j, hj, h0, -, rfl⟩ := lookup_some hl
    unfold State.node
    rw [if_neg (hall i hlt j hj h0)]
    exact some_ne_none _

/-- The path `//a/.//a/`. -/
def twoDown : List UInt8 := [47, 47, 97, 47, 46, 47, 47, 97, 47]

theorem two_elements_down : ∃ r t, namei 0 twoDown (boot chainImage) = .ok (r, t) ∧
    r.map (fun k => (t.itable k).inum) = some 3 ∧ OneMore (boot chainImage) r t := by
  have hsat := (paths_follow_grammar chainImage_proper.settled chainImage_tree (show 0 < nproc by decide) rfl twoDown).1
  have hok : (namei 0 twoDown (boot chainImage)).toOption.isSome = true := by decide +kernel
  have htarget : resolve (boot chainImage).node ((boot chainImage).startOf 0 twoDown) (elements twoDown) = some 3 := by
    decide +kernel
  cases hrun : namei 0 twoDown (boot chainImage) with
  | error e =>
    rw [hrun] at hok
    cases hok
  | ok x =>
    obtain ⟨hr, -, hrefs⟩ := hsat.of_ok hrun
    exact ⟨x.1, x.2, rfl, hr.trans htarget, hrefs⟩

end Xv6Armv8.Fs

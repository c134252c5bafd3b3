import Xv6Armv8.FsWrite
import Xv6Armv8.LibRecords

/-! Files as arrays of bytes. What the rest of the kernel sees of an inode is a node: its type, its device, the
number of its links and a list of bytes. `readi` returns a part of the list, `writei` splices bytes into it,
`itrunc` empties it, and none of them touches the node of another inode. -/

namespace Xv6Armv8.Fs

open Spec Alloc StepRun Records Function List Option

variable {s t u : State} {k i off n : Nat} {src : Nat → Option UInt8}

/-- What an inode stands for. -/
structure Node where
  type : Nat
  major : Int
  minor : Int
  nlink : Int
  contents : List UInt8

/-- The bytes of the file with inode number `i`. -/
def State.contents (s : State) (i : Nat) : List UInt8 := s.bytesOf i 0 (s.dinode i).size

def State.nodeOf (s : State) (i : Nat) : Node :=
  ⟨(s.dinode i).type, (s.dinode i).major, (s.dinode i).minor, (s.dinode i).nlink, s.contents i⟩

/-- The node of an inode that is allocated. -/
def State.node (s : State) (i : Nat) : Option Node := if (s.dinode i).type = 0 then none else some (s.nodeOf i)

@[simp] theorem length_contents : (s.contents i).length = (s.dinode i).size := length_bytesOf

theorem getElem?_contents {x : Nat} :
    (s.contents i)[x]? = if x < (s.dinode i).size then some (s.byteOf i x) else none := by
  unfold State.contents State.bytesOf
  rw [List.getElem?_map]
  split
  · next hlt => simp [List.getElem?_range hlt]
  · next hge => simp [List.getElem?_eq_none (show (List.range (s.dinode i).size).length ≤ x by simpa using hge)]

theorem Disk.node_eq (h : Disk s.dinode s) (hk : Live s k) :
    s.node (s.itable k).inum = some (s.nodeOf (s.itable k).inum) :=
  if_neg (h.sync k hk.1 hk.2).2

/-- Two states with the same inode and the same bytes below its size have the same node. -/
theorem node_congr (hd : t.dinode i = s.dinode i)
    (hbytes : (s.dinode i).type ≠ 0 → ∀ x, x < (s.dinode i).size → t.byteOf i x = s.byteOf i x) :
    t.node i = s.node i := by
  unfold State.node
  rw [hd]
  split
  · rfl
  · next ht =>
      unfold State.nodeOf
      rw [hd]
      congr 2
      apply ext_getElem?
      intro x
      rw [getElem?_contents, getElem?_contents, hd]
      split
      · next hx => rw [hbytes ht x hx]
      · rfl

theorem Disk.held (h : Disk s.dinode s) {x : Nat} (ht : (s.dinode i).type ≠ 0) (hx : x < (s.dinode i).size) :
    slots s.dinode s.data (i, place (x / bsize)) ≠ 0 :=
  h.filled i _ ht (lt_of_le_of_lt (Nat.div_mul_le_self x bsize) hx)

/-! ### writei -/

/-- The first `m` bytes of a source. -/
def taken (src : Nat → Option UInt8) (m : Nat) : List UInt8 := (List.range m).map fun j => (src j).getD 0

@[simp] theorem length_taken {m : Nat} : (taken src m).length = m := by simp [taken]

theorem getElem?_taken {m j : Nat} (hj : j < m) : (taken src m)[j]? = some ((src j).getD 0) := by
  simp [taken, List.getElem?_range hj]

/-- What a `writei` of `m` bytes has made of the node. -/
def Node.write (nd : Node) (off : Nat) (bs : List UInt8) : Node := { nd with contents := splice nd.contents off bs }

/-- A `writei` that has copied the first `m` of `n` bytes. -/
structure Spliced (k : Nat) (src : Nat → Option UInt8) (off n : Nat) (s : State) (m : Nat) (t : State) : Prop where
  written : Written k src off n s m t
  node : t.node = update s.node (s.itable k).inum (some ((s.nodeOf (s.itable k).inum).write off (taken src m)))
  size : (t.dinode (s.itable k).inum).size = max (s.dinode (s.itable k).inum).size (off + m)
  /-- The loop stops between blocks. -/
  whole : m < n → m = 0 ∨ (off + m) % bsize = 0
  full : m < n → (∀ x, x < t.sb.size → t.bitmap x = true) ∧
    slots t.dinode t.data ((s.itable k).inum, place ((off + m) / bsize)) = 0

theorem Stopped.spliced {m e p : Nat} (h : Disk s.dinode s) (hk : Live s k) (hacc : Accepts s k off n)
    (hsrc : ∀ j, j < n → src j ≠ none) (hstop : Stopped k src n 0 off s (m, e) p u)
    (hw : Written k src off n s m (u.ended k e)) : Spliced k src off n s m (u.ended k e) := by
  have hp : p = 0 := by
    by_contra hp
    obtain ⟨hlt, hnone, -⟩ := hstop.fault hp
    exact hsrc _ hlt hnone
  have he : e = off + (m - 0) := hstop.le.2.2
  obtain ⟨hd, ht⟩ := h.sync k hk.1 hk.2
  obtain ⟨a, ha⟩ := hw.fields
  rw [hd] at ha
  have hoff : off ≤ (s.dinode (s.itable k).inum).size := by
    rw [← hd]
    exact hacc.1
  have hinum : (u.itable k).inum = (s.itable k).inum := hstop.wrote.frame.inum k
  have hsame : ∀ x, x < off ∨ off + m ≤ x → x < (s.dinode (s.itable k).inum).size →
      (u.ended k e).byteOf (s.itable k).inum x = s.byteOf (s.itable k).inum x := by
    intro x hx hlt
    rw [← hinum, ended_byteOf, hinum, ← h.byteAt_eq hk]
    refine hstop.wrote.byteAt (by dsimp only; omega) ?_
    rw [h.slotsAt_eq hk]
    exact h.held ht hlt
  refine ⟨hw, ?_, by rw [ha], fun hlt => ?_, fun hlt => ?_⟩
  · funext i
    by_cases hi : i = (s.itable k).inum
    · rw [hi, update_self]
      unfold State.node State.nodeOf Node.write
      rw [ha, if_neg ht]
      congr 2
      apply ext_getElem?
      intro x
      rw [getElem?_contents, ha, getElem?_splice (by rw [length_contents]; exact hoff), length_taken]
      dsimp only
      by_cases hx : off ≤ x ∧ x < off + m
      · rw [if_pos (by omega), if_pos hx, getElem?_taken (by omega), hw.copied (x - off) (by omega),
          Nat.add_sub_cancel' hx.1]
        rfl
      · rw [if_neg hx, getElem?_contents]
        by_cases hlt : x < (s.dinode (s.itable k).inum).size
        · rw [if_pos (by omega), if_pos hlt, hsame x (by omega) hlt]
        · rw [if_neg (by omega), if_neg hlt]
    · rw [update_of_ne hi]
      exact node_congr (hw.inodes i hi) fun hti x hx => hw.bytes i x (h.held hti hx) (.inl hi)
  · rcases hstop.start hlt with h0 | hmod
    · exact .inl h0
    · rw [show e = off + m by omega] at hmod
      exact .inr hmod
  · rcases hstop.stop hlt with hbad | ⟨-, hfull, hmiss⟩
    · exact absurd hbad (hsrc _ (by dsimp only; omega))
    · rw [← ended_slots (e := e), show e = off + m by omega] at hmiss
      rw [show e = off + m by omega]
      exact ⟨hfull, hmiss⟩

/-- **`writei` from a source that does not fault splices bytes into the file**: all of them unless the disk
is full. -/
theorem writei_node (h : Disk s.dinode s) (hk : Live s k) (hsrc : ∀ j, j < n → src j ≠ none) :
    Sat (writei k src off n) s (fun r t => (r = -1 ∧ t = s ∧ ¬Accepts s k off n) ∨
      (Accepts s k off n ∧ ∃ m : Nat, r = m ∧ Spliced k src off n s m t)) LogErr := by
  refine (writei_stopped h hk).imp fun r t ht => ?_
  rcases ht with hrej | ⟨hacc, m, e, p, u, hr, hstop, hend, rfl⟩
  · exact .inl hrej
  · exact .inr ⟨hacc, m, hr, hstop.spliced h hk hacc hsrc (hend.written h hk hacc.2.2 rfl)⟩

/-! ### readi and itrunc -/

/-- What a read of `n` bytes from `off` on returns: nothing if the arguments are turned down. -/
def readPart (bs : List UInt8) (off n : Nat) : List UInt8 := (bs.drop off).take (readCount bs.length off n)

theorem bytesOf_eq {m : Nat} (hm : off + m ≤ (s.dinode i).size) :
    s.bytesOf i off m = ((s.contents i).drop off).take m := by
  apply ext_getElem?
  intro x
  by_cases hx : x < m
  · rw [List.getElem?_take_of_lt hx, List.getElem?_drop, getElem?_contents, if_pos (by omega)]
    simp [State.bytesOf, List.getElem?_range hx]
  · rw [List.getElem?_eq_none (by rw [length_bytesOf]; omega), List.getElem?_eq_none]
    rw [length_take]
    omega

/-- **`readi` to a destination that does not fault returns a part of the file.** -/
theorem readi_node {dst : Nat → Bool} (h : Disk s.dinode s) (hk : Live s k) (hdst : ∀ j, j < n → dst j = true) :
    Sat (readi k dst off n) s (fun r t => t = s ∧ r.2 = readPart (s.contents (s.itable k).inum) off n ∧
      r.1 = r.2.length) fun _ => False := by
  obtain ⟨hd, ht⟩ := h.sync k hk.1 hk.2
  refine (readi_spec h hk).imp fun r t hr => ?_
  obtain ⟨rfl, hread⟩ := hr
  refine ⟨rfl, ?_⟩
  have hle : readCount (t.itable k).d.size off n = 0 ∨ off + readCount (t.itable k).d.size off n ≤ (t.itable k).d.size :=
    readCount_le
  have hn : readCount (t.itable k).d.size off n ≤ n := by
    unfold readCount
    split
    · exact Nat.zero_le n
    · split <;> omega
  unfold readPart
  rw [length_contents]
  rw [hd] at hread hle hn
  generalize r.1 = v, r.2 = bs at hread ⊢
  generalize readCount (t.dinode (t.itable k).inum).size off n = m at *
  cases hread with
  | all _ =>
    rw [Nat.sub_zero]
    refine ⟨?_, by rw [length_bytesOf]⟩
    rcases hle with h0 | hle
    · rw [h0, bytesOf_zero, take_zero]
    · exact bytesOf_eq hle
  | fault j _ hlt hbad _ => exact absurd (hdst j (by omega)) (by rw [hbad]; exact Bool.false_ne_true)

/-- **`itrunc` makes the file empty.** -/
theorem itrunc_node (h : Disk s.dinode s) (hk : Live s k) :
    Sat (itrunc k) s (fun _ t => Truncated k s t ∧ t.node = update s.node (s.itable k).inum
      (some { s.nodeOf (s.itable k).inum with contents := [] })) LogErr := by
  obtain ⟨hd, ht⟩ := h.sync k hk.1 hk.2
  refine (itrunc_spec h hk).imp fun _ t htr => ⟨htr, ?_⟩
  obtain ⟨a, ha, -⟩ := htr.fields
  funext i
  by_cases hi : i = (s.itable k).inum
  · rw [hi, update_self]
    unfold State.node State.nodeOf State.contents
    rw [ha, if_neg ht]
    rfl
  · rw [update_of_ne hi]
    refine node_congr (htr.inodes i hi) fun hti x hx => ?_
    unfold State.byteOf slots
    rw [htr.data, htr.inodes i hi]

/-! ### Sequences of calls -/

/-- The bytes of an allocated inode. -/
def State.file (s : State) (i : Nat) : Option (List UInt8) := (s.node i).map Node.contents

/-- A call on an entry of the table, with what it returned; `full` says that no block was free after it. -/
inductive FileOp
  | read (k off n : Nat) (out : List UInt8)
  | write (k off n : Nat) (src : Nat → UInt8) (r : Int) (full : Bool)
  | trunc (k : Nat)

def FileOp.entry : FileOp → Nat
  | .read k _ _ _ => k
  | .write k _ _ _ _ _ => k
  | .trunc k => k

/-- No block is free. -/
def State.diskFull (s : State) : Bool := (List.range s.sb.size).all fun b => s.bitmap b

theorem diskFull_iff : s.diskFull = true ↔ ∀ b, b < s.sb.size → s.bitmap b = true := by
  simp [State.diskFull]

/-- A call that returns what the event says. -/
def fileStep (s : State) : FileOp → Option State
  | .read k off n out =>
    match readi k (fun _ => true) off n s with
    | .ok (r, t) => if r = ((out.length : Int), out) then some t else none
    | .error _ => none
  | .write k off n src r full =>
    match writei k (fun j => some (src j)) off n s with
    | .ok (r', t) => if r' = r ∧ t.diskFull = full then some t else none
    | .error _ => none
  | .trunc k =>
    match itrunc k s with
    | .ok (_, t) => some t
    | .error _ => none

/-- What a file that is a list of bytes returns for a read: the part from `off` up to `off + n` that it has,
and nothing if `off + n` wraps around. -/
def refRead (bs : List UInt8) (off n : Nat) : List UInt8 := if u32 (off + n) < off then [] else (bs.drop off).take n

/-- A write that is turned down. -/
def Refused (bs : List UInt8) (off n : Nat) : Prop :=
  bs.length < off ∨ u32 (off + n) < off ∨ maxfile * bsize < off + n

/-- The calls on files that are lists of bytes; `inum` gives the file of an entry. -/
inductive RefStep (inum : Nat → Nat) : (Nat → Option (List UInt8)) → FileOp → (Nat → Option (List UInt8)) → Prop
  | read {F k off n bs} : F (inum k) = some bs → RefStep inum F (.read k off n (refRead bs off n)) F
  | refused {F k off n src full bs} : F (inum k) = some bs → Refused bs off n →
      RefStep inum F (.write k off n src (-1) full) F
  | write {F k off n src full bs} (m : Nat) : F (inum k) = some bs → ¬Refused bs off n → m ≤ n →
      (m < n → full = true) → RefStep inum F (.write k off n src m full)
        (update F (inum k) (some (splice bs off ((List.range m).map src))))
  | trunc {F k bs} : F (inum k) = some bs → RefStep inum F (.trunc k) (update F (inum k) (some []))

theorem readPart_eq {bs : List UInt8} : readPart bs off n = refRead bs off n := by
  unfold readPart refRead readCount
  by_cases hwrap : u32 (off + n) < off
  · rw [if_pos (.inr hwrap), if_pos hwrap, take_zero]
  · rw [if_neg hwrap]
    by_cases hoff : bs.length < off
    · rw [if_pos (.inl hoff), drop_of_length_le hoff.le, take_nil, take_nil]
    · rw [if_neg (by omega)]
      split
      · rw [take_of_length_le (by rw [length_drop]), take_of_length_le (by rw [length_drop]; omega)]
      · rfl

theorem file_update {nd : Node} (h : t.node = update s.node i (some nd)) :
    t.file = update s.file i (some nd.contents) := by
  funext j
  unfold State.file
  rw [h]
  by_cases hj : j = i
  · rw [hj, update_self, update_self]
    rfl
  · rw [update_of_ne hj, update_of_ne hj]

theorem file_live (h : Disk s.dinode s) (hk : Live s k) :
    s.file (s.itable k).inum = some (s.contents (s.itable k).inum) := by
  unfold State.file
  rw [h.node_eq hk]
  rfl

theorem accepts_iff (h : Disk s.dinode s) (hk : Live s k) :
    Accepts s k off n ↔ ¬Refused (s.contents (s.itable k).inum) off n := by
  unfold Accepts Refused
  rw [length_contents, (h.sync k hk.1 hk.2).1]
  omega

/-- The entries `K` are in use and stand for the inodes they stood for at the start. -/
structure Serving (K : Nat → Prop) (inum : Nat → Nat) (s : State) : Prop where
  disk : Disk s.dinode s
  live : ∀ k, K k → Live s k
  inum : ∀ k, K k → (s.itable k).inum = inum k

variable {K : Nat → Prop} {inum : Nat → Nat}

theorem Serving.frame (h : Serving K inum s) (hd : Disk t.dinode t) (hf : Frame s t) : Serving K inum t :=
  ⟨hd, fun k hk => (h.live k hk).frame hf, fun k hk => (hf.inum k).trans (h.inum k hk)⟩

theorem read_ref {out : List UInt8} (h : Serving K inum s) (hk : K k) (hs : fileStep s (.read k off n out) = some t) :
    Serving K inum t ∧ RefStep inum s.file (.read k off n out) t.file := by
  have hlive := h.live k hk
  have hsat : Sat (readi k (fun _ => true) off n) s _ _ := readi_node h.disk hlive fun _ _ => rfl
  obtain ⟨r, u, heq, hsame, hout, -⟩ := hsat.ok
  simp only [fileStep, heq] at hs
  obtain ⟨hr, hu⟩ := ite_none_right_eq_some.mp hs
  rw [← some_inj.mp hu, hsame]
  have hout' : out = refRead (s.contents (s.itable k).inum) off n := by
    rw [← readPart_eq, ← hout, hr]
  rw [hout']
  refine ⟨h, .read ?_⟩
  rw [← h.inum k hk]
  exact file_live h.disk hlive

theorem write_ref {src : Nat → UInt8} {r : Int} {full : Bool} (h : Serving K inum s) (hk : K k)
    (hs : fileStep s (.write k off n src r full) = some t) :
    Serving K inum t ∧ RefStep inum s.file (.write k off n src r full) t.file := by
  have hlive := h.live k hk
  have hfile : s.file (inum k) = some (s.contents (s.itable k).inum) := by
    rw [← h.inum k hk]
    exact file_live h.disk hlive
  cases hw : writei k (fun j => some (src j)) off n s with
  | error e =>
    simp only [fileStep, hw] at hs
    cases hs
  | ok res =>
    simp only [fileStep, hw] at hs
    obtain ⟨⟨hr, hfull⟩, hu⟩ := ite_none_right_eq_some.mp hs
    cases hu
    rcases (writei_node h.disk hlive fun j _ => by simp).of_ok hw with ⟨hneg, hsame, hrej⟩ | ⟨hacc, m, hm, hsp⟩
    · rw [hsame, ← hr, hneg]
      rw [accepts_iff h.disk hlive, not_not] at hrej
      exact ⟨h, .refused hfile hrej⟩
    · rw [accepts_iff h.disk hlive] at hacc
      refine ⟨h.frame hsp.written.disk hsp.written.frame, ?_⟩
      rw [file_update hsp.node, ← hr, hm, h.inum k hk]
      rw [h.inum k hk] at hfile hacc
      have hbytes : taken (fun j => some (src j)) m = (List.range m).map src := rfl
      show RefStep inum s.file _ (update s.file (inum k) (some (splice _ off (taken _ m))))
      rw [hbytes]
      refine .write m hfile hacc hsp.written.le fun hlt => ?_
      rw [← hfull, diskFull_iff]
      exact (hsp.full hlt).1

theorem trunc_ref (h : Serving K inum s) (hk : K k) (hs : fileStep s (.trunc k) = some t) :
    Serving K inum t ∧ RefStep inum s.file (.trunc k) t.file := by
  have hlive := h.live k hk
  cases hw : itrunc k s with
  | error e =>
    simp only [fileStep, hw] at hs
    cases hs
  | ok res =>
    simp only [fileStep, hw] at hs
    cases hs
    obtain ⟨htr, hnode⟩ := (itrunc_node h.disk hlive).of_ok hw
    refine ⟨h.frame htr.disk htr.frame, ?_⟩
    rw [file_update hnode, h.inum k hk]
    have hfile := file_live h.disk hlive
    rw [h.inum k hk] at hfile
    exact .trunc hfile

/-- **Files are arrays of bytes**: in every sequence of calls on entries in use, each call returns and does what
files that are lists of bytes allow, and a call that does not return has run out of room in the log. -/
theorem files_are_byte_arrays {tr : List FileOp} (h : Disk s.dinode s) (hK : ∀ k, K k → Live s k)
    (hrun : Run fileStep (fun _ op => K op.entry) s tr t) :
    Steps (RefStep fun k => (s.itable k).inum) s.file tr t.file ∧ ∀ k, K k →
      (∀ off n, ∃ r, readi k (fun _ => true) off n t = .ok r) ∧
      (∀ (src : Nat → UInt8) off n e, writei k (fun j => some (src j)) off n t = .error e → LogErr e) ∧
      ∀ e, itrunc k t = .error e → LogErr e := by
  have h0 : Serving K (fun k => (s.itable k).inum) s := ⟨h, hK, fun _ _ => rfl⟩
  obtain ⟨ht, hsteps⟩ := hrun.simulates (R := RefStep fun k => (s.itable k).inum) (f := State.file) h0
    fun a op b ha hop hs => by
      cases op with
      | read k off n out => exact read_ref ha hop hs
      | write k off n src r full => exact write_ref ha hop hs
      | trunc k => exact trunc_ref ha hop hs
  refine ⟨hsteps, fun k hk => ⟨fun off n => ?_, fun src off n e he => ?_, fun e he => ?_⟩⟩
  · have hsat : Sat (readi k (fun _ => true) off n) t _ _ := readi_node ht.disk (ht.live k hk) fun _ _ => rfl
    obtain ⟨r, u, heq, -⟩ := hsat.ok
    exact ⟨(r, u), heq⟩
  · exact (writei_node ht.disk (ht.live k hk) fun j _ => by simp).of_error he
  · exact (itrunc_node ht.disk (ht.live k hk)).of_error he

/-- Two bytes are written over and two added, all are read, and the file is emptied. -/
def editing : List FileOp :=
  [.write 1 2 4 (fun _ => 98) 4 false, .read 1 0 9 [97, 97, 98, 98, 98, 98], .trunc 1]

/-- The file of `fourWritten` has four bytes, and the calls above are accepted on it. -/
def Edited (s : State) : Prop :=
  (0 < (s.itable 1).ref ∧ (s.itable 1).valid = true ∧ (s.itable 1).d.size = 4) ∧
    (StepRun.exec fileStep (fun _ op => op.entry = 1) s.began editing).isSome = true

instance (s : State) : Decidable (Edited s) := inferInstanceAs (Decidable (_ ∧ _))

theorem edited_state : ∃ s, Run step (fun _ _ => True) (boot chainImage) fourWritten s ∧ Disk s.dinode s.began ∧
    Live s.began 1 ∧ Edited s := by
  have hexec : (StepRun.exec step (fun _ _ => True) (boot chainImage) fourWritten).map
      (fun s => decide (Edited s)) = some true := by decide +kernel
  obtain ⟨s, hs, hend⟩ := map_eq_some_iff.mp hexec
  have hedit : Edited s := of_decide_eq_true hend
  have hd : Disk s.dinode s := (chainImage_consistent.run (run_of_exec hs)).ok.disk trivial
  exact ⟨s, run_of_exec hs, ⟨hd.size_lt, hd.owns, hd.reserved, hd.small, hd.filled, hd.dev, hd.uniq, hd.sync⟩,
    ⟨hedit.1.1, hedit.1.2.1⟩, hedit⟩

theorem files_are_byte_arrays_editing : ∃ s t, Run fileStep (fun _ op => op.entry = 1) s editing t ∧
    Steps (RefStep fun k => (s.itable k).inum) s.file editing t.file := by
  obtain ⟨s, -, hd, hlive, hedit⟩ := edited_state
  have hrun := run_get hedit.2
  have hK : ∀ k, k = 1 → Live s.began k := by
    rintro k rfl
    exact hlive
  exact ⟨s.began, _, hrun, (files_are_byte_arrays hd hK hrun).1⟩

/-- A read of a file of four bytes from offset 1 on returns nothing where the length makes the end wrap. -/
theorem wrapping_read_empty : ∃ s, Run step (fun _ _ => True) (boot chainImage) fourWritten s ∧
    (∃ bs, s.file (s.itable 1).inum = some bs ∧ (bs.drop 1).take (2 ^ 32 - 1) ≠ []) ∧
    ∃ t, readi 1 (fun _ => true) 1 (2 ^ 32 - 1) s.began = .ok ((0, []), t) := by
  obtain ⟨s, hrun, hd, hlive, hedit⟩ := edited_state
  have hfile : s.began.file (s.itable 1).inum = some (s.contents (s.itable 1).inum) := file_live hd hlive
  refine ⟨s, hrun, ⟨_, hfile, fun hnil => ?_⟩, ?_⟩
  · have hsize : (s.contents (s.itable 1).inum).length = 4 := by
      rw [length_contents, ← hedit.1.2.2]
      exact congrArg Dinode.size (hd.sync 1 hlive.1 hlive.2).1.symm
    have hlen := congrArg List.length hnil
    rw [length_take, length_drop, hsize] at hlen
    simp at hlen
  · have hsat : Sat (readi 1 (fun _ => true) 1 (2 ^ 32 - 1)) s.began _ _ := readi_node hd hlive fun _ _ => rfl
    obtain ⟨⟨r, bs⟩, t, heq, -, hbs, hr⟩ := hsat.ok
    have hempty : refRead (s.began.contents (s.began.itable 1).inum) 1 (2 ^ 32 - 1) = [] := if_pos (by decide)
    rw [readPart_eq, hempty] at hbs
    dsimp only at hbs hr
    rw [hbs] at hr heq
    rw [hr] at heq
    exact ⟨t, heq⟩

end Xv6Armv8.Fs

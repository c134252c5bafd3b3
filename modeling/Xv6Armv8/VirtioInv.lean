import Xv6Armv8.LibRing
import Xv6Armv8.LibRun
import Xv6Armv8.VirtioDesc

/-! Who has a descriptor, and where a request is. A descriptor is free or in the chain of one process; the head of
the chain of a process that waits for its buffer is in exactly one of three places: the avail ring, the hands of the
device, the used ring. The handler takes it out of the last and clears the buffer, and only then does the process
free the chain. -/

namespace Xv6Armv8.Virtio

open Function List StepRun

/-! ### What a place means -/

/-- The descriptors that a process has allocated. -/
def Pc.descs : Pc → List Nat
  | .fill _ _ i j k | .ring _ i j k | .bump _ i j k | .test _ i j k | .sleepBuf _ i j k => [i, j, k]
  | _ => []

def Pc.buf : Pc → Option Buf
  | .out => none
  | .alloc b _ | .sleepFree b _ | .fill b _ _ _ _ | .ring b _ _ _ | .bump b _ _ _ | .test b _ _ _
  | .sleepBuf b _ _ _ => some b

/-- The places at which a process holds `vdisk_lock`. -/
def Pc.locked : Pc → Bool
  | .alloc _ _ | .fill _ _ _ _ _ | .ring _ _ _ _ | .bump _ _ _ _ | .test _ _ _ _ => true
  | _ => false

/-- A chain that has been filled in, with its buffer. -/
def Pc.chain : Pc → Option (Buf × Nat × Nat × Nat)
  | .ring b i j k | .bump b i j k | .test b i j k | .sleepBuf b i j k => some (b, i, j, k)
  | _ => none

/-- A chain that the device knows about. -/
def Pc.waits : Pc → Option (Buf × Nat × Nat × Nat)
  | .test b i j k | .sleepBuf b i j k => some (b, i, j, k)
  | _ => none

/-- The heads in the avail ring, in the hands of the device, and in the used ring. -/
def State.avail (s : State) : List Nat := Ring.entries num idxMod s.disk.availRing s.seen s.disk.availIdx
def State.used (s : State) : List Nat := Ring.entries num idxMod s.disk.usedRing s.disk.usedIdx s.disk.deviceIdx
def State.flight (s : State) : List Nat := s.avail ++ (s.pending.map Req.head ++ s.used)

/-- The buffer that a request names. -/
def Req.buf (r : Req) : Option Buf :=
  match r.addrs with
  | [_, .data b, _] => some b
  | _ => none

variable {q : Pc}

theorem Pc.chain_of_waits {x : Buf × Nat × Nat × Nat} (h : q.waits = some x) : q.chain = some x := by
  cases q <;> first | exact h | cases h

theorem Pc.descs_of_chain {b : Buf} {i j k : Nat} (h : q.chain = some (b, i, j, k)) :
    q.descs = [i, j, k] ∧ q.buf = some b := by
  cases q <;> first | (cases h; exact ⟨rfl, rfl⟩) | cases h

/-! ### The invariant -/

/-- The driver: locks, descriptors and the chains in them. -/
structure Own (s : State) : Prop where
  lock : ∀ p, (s.pc p).locked = true ↔ s.lock = some (.proc p)
  owner : ∀ p b, (s.pc p).buf = some b → s.owner b = some p
  nodup : ∀ p, (s.pc p).descs.Nodup
  lt : ∀ p, ∀ i ∈ (s.pc p).descs, i < num ∧ s.disk.free i = false
  used : ∀ i, i < num → s.disk.free i = false → ∃ p, i ∈ (s.pc p).descs
  apart : ∀ p q i, i ∈ (s.pc p).descs → i ∈ (s.pc q).descs → p = q
  formed : ∀ p b i j k, (s.pc p).chain = some (b, i, j, k) → Formed s.disk b i j k

/-- The rings and the device. -/
structure Flight (s : State) : Prop where
  idx : s.seen < idxMod ∧ s.disk.availIdx < idxMod ∧ s.disk.usedIdx < idxMod ∧ s.disk.deviceIdx < idxMod
  nodup : s.flight.Nodup
  mem : ∀ h, h ∈ s.flight ↔ ∃ p b j k, (s.pc p).waits = some (b, h, j, k) ∧ s.busy b = true
  busy : ∀ p b i j k, (s.pc p).chain = some (b, i, j, k) → (s.pc p).waits = none → s.busy b = true
  slot : ∀ p b i j k, s.pc p = .bump b i j k → s.disk.availRing (s.disk.availIdx % num) = i
  status : ∀ h ∈ s.used, (s.disk.info h).status = 0
  pending : ∀ r ∈ s.pending, ∃ p b j k, (s.pc p).waits = some (b, r.head, j, k) ∧
    r.addrs = [.op r.head, .data b, .status r.head]
  published : s.published = s.taken ++ s.avail
  completed : s.completed.map (fun r => (r.head, r.buf)) =
    s.cleared ++ s.used.map fun h => (h, (s.disk.info h).b)
  running : s.panicked = false

section

variable {s s' : State} {p : Pid} {b : Buf} {i j k h : Nat}

theorem Own.unique (ho : Own s) {q : Pid} {b' : Buf} {j' k' : Nat} (hp : (s.pc p).chain = some (b, h, j, k))
    (hq : (s.pc q).chain = some (b', h, j', k')) : p = q := by
  refine ho.apart p q h ?_ ?_
  · rw [(Pc.descs_of_chain hp).1]
    exact mem_cons_self
  · rw [(Pc.descs_of_chain hq).1]
    exact mem_cons_self

theorem Own.lt_of_chain (ho : Own s) (hp : (s.pc p).chain = some (b, h, j, k)) : h < num :=
  (ho.lt p h (by rw [(Pc.descs_of_chain hp).1]; exact mem_cons_self)).1

theorem length_le_num {l : List Nat} (hnodup : l.Nodup) (hlt : ∀ h ∈ l, h < num) : l.length ≤ num := by
  have hsub : l ⊆ List.range num := fun h hh => mem_range.mpr (hlt h hh)
  have hle := (hnodup.subperm hsub).length_le
  rwa [length_range] at hle

theorem Flight.lt (ho : Own s) (hf : Flight s) (hh : h ∈ s.flight) : h < num := by
  obtain ⟨p, b, j, k, hw, -⟩ := (hf.mem h).mp hh
  exact ho.lt_of_chain (Pc.chain_of_waits hw)

theorem Flight.not_mem (ho : Own s) (hf : Flight s) (hi : i ∈ (s.pc p).descs) (hw : (s.pc p).waits = none) :
    i ∉ s.flight := by
  intro hmem
  obtain ⟨q, b', j', k', hq, -⟩ := (hf.mem i).mp hmem
  have hiq : i ∈ (s.pc q).descs := by
    rw [(Pc.descs_of_chain (Pc.chain_of_waits hq)).1]
    exact mem_cons_self
  obtain rfl := ho.apart p q i hi hiq
  rw [hw] at hq
  cases hq

theorem Flight.room (ho : Own s) (hf : Flight s) (hp : (s.pc p).chain = some (b, i, j, k))
    (hw : (s.pc p).waits = none) : Ring.count idxMod s.seen s.disk.availIdx < num := by
  have hnot := hf.not_mem ho (p := p) (by rw [(Pc.descs_of_chain hp).1]; exact mem_cons_self) hw
  have hle : (i :: s.flight).length ≤ num := by
    refine length_le_num (nodup_cons.mpr ⟨hnot, hf.nodup⟩) fun h hh => ?_
    rcases mem_cons.mp hh with rfl | hh
    · exact ho.lt_of_chain hp
    · exact hf.lt ho hh
  have hlen : s.avail.length ≤ s.flight.length := by
    rw [State.flight, length_append]
    exact Nat.le_add_right _ _
  rw [State.avail, Ring.length_entries] at hlen
  rw [length_cons] at hle
  omega

theorem Own.buf_ne (ho : Own s) {q : Pid} {b' : Buf} (hp : (s.pc p).buf = some b) (hq : (s.pc q).buf = some b')
    (hne : q ≠ p) : b' ≠ b := by
  rintro rfl
  have h := (ho.owner q b' hq).symm.trans (ho.owner p b' hp)
  exact hne (Option.some.inj h)

theorem State.pending_subset (s : State) {r : Req} (hr : r ∈ s.pending) : r.head ∈ s.flight :=
  mem_append_right _ (mem_append_left _ (mem_map_of_mem hr))

theorem State.used_subset (s : State) (hh : h ∈ s.used) : h ∈ s.flight :=
  mem_append_right _ (mem_append_right _ hh)

/-! ### Steps of the driver -/

/-- What the lock is for the others. -/
def Passes (s s' : State) (p : Pid) : Prop := ∀ q, q ≠ p → (s'.lock = some (.proc q) ↔ s.lock = some (.proc q))

theorem passes_of (h : s.lock = none ∨ s.lock = some (.proc p)) (h' : s'.lock = none ∨ s'.lock = some (.proc p)) :
    Passes s s' p := by
  intro q hq
  rcases h with h | h <;> rcases h' with h' | h' <;> simp [h, h', Ne.symm hq]

theorem forall_pc {P : Pid → Pc → Prop} (hpc : s'.pc = update s.pc p q) (hself : P p q)
    (hother : ∀ r, r ≠ p → P r (s.pc r)) (r : Pid) : P r (s'.pc r) := by
  rw [hpc]
  exact (forall_update_iff s.pc P).mpr ⟨hself, hother⟩ r

section

variable (ho : Own s) (hpc : s'.pc = update s.pc p q) (hpass : Passes s s' p) (hlock : q.locked = true ↔ s'.lock = some (.proc p)) (hown : s'.owner = s.owner) (hbuf : ∀ b, q.buf = some b → s.owner b = some p)
include ho hpc hpass hlock hown hbuf

theorem Own.moves (hnodup : q.descs.Nodup)
    (hlt : ∀ i ∈ q.descs, i < num ∧ s'.disk.free i = false)
    (hsame : ∀ i, i ∉ (s.pc p).descs → i ∉ q.descs → s'.disk.free i = s.disk.free i)
    (hdrop : ∀ i ∈ (s.pc p).descs, i ∉ q.descs → s'.disk.free i = true)
    (hapart : ∀ r i, r ≠ p → i ∈ (s.pc r).descs → i ∉ q.descs)
    (hformed : ∀ r b i j k, r ≠ p → (s.pc r).chain = some (b, i, j, k) → Formed s'.disk b i j k)
    (hnew : ∀ b i j k, q.chain = some (b, i, j, k) → Formed s'.disk b i j k) : Own s' := by
  have hself : s'.pc p = q := by rw [hpc, update_self]
  have hother : ∀ r, r ≠ p → s'.pc r = s.pc r := fun r hr => by rw [hpc, update_of_ne hr]
  refine ⟨forall_pc (P := fun r q => q.locked = true ↔ s'.lock = some (.proc r)) hpc hlock fun r hr => ?_,
    forall_pc (P := fun r q => ∀ b, q.buf = some b → s'.owner b = some r) hpc (hown ▸ hbuf) fun r _ => ?_,
    forall_pc (P := fun _ q => q.descs.Nodup) hpc hnodup fun r _ => ho.nodup r,
    forall_pc (P := fun _ q => ∀ i ∈ q.descs, i < num ∧ s'.disk.free i = false) hpc hlt fun r hr i hi => ?_,
    fun i hi hf => ?_, fun r t i hr ht => ?_,
    forall_pc (P := fun _ q => ∀ b i j k, q.chain = some (b, i, j, k) → Formed s'.disk b i j k) hpc hnew
      fun r hr b i j k => hformed r b i j k hr⟩
  · rw [hpass r hr]
    exact ho.lock r
  · rw [hown]
    exact ho.owner r
  · obtain ⟨h1, h2⟩ := ho.lt r i hi
    refine ⟨h1, ?_⟩
    rw [hsame i (fun hp => hr (ho.apart r p i hi hp)) (hapart r i hr hi)]
    exact h2
  · by_cases hq : i ∈ q.descs
    · exact ⟨p, by rwa [hself]⟩
    · by_cases hp : i ∈ (s.pc p).descs
      · rw [hdrop i hp hq] at hf
        cases hf
      · rw [hsame i hp hq] at hf
        obtain ⟨r, hr⟩ := ho.used i hi hf
        have hrp : r ≠ p := fun e => hp (e ▸ hr)
        exact ⟨r, by rwa [hother r hrp]⟩
  · by_cases er : r = p <;> by_cases et : t = p
    · rw [er, et]
    · subst er
      rw [hself] at hr
      rw [hother t et] at ht
      exact absurd hr (hapart t i et ht)
    · subst et
      rw [hself] at ht
      rw [hother r er] at hr
      exact absurd ht (hapart r i er hr)
    · rw [hother r er] at hr
      rw [hother t et] at ht
      exact ho.apart r t i hr ht

theorem Own.stays (hdescs : q.descs = (s.pc p).descs)
    (hfree : s'.disk.free = s.disk.free) (hchain : ∀ b i j k, q.chain = some (b, i, j, k) → (s.pc p).chain = some (b, i, j, k))
    (hformed : ∀ r b i j k, (s.pc r).chain = some (b, i, j, k) → Formed s'.disk b i j k) : Own s' := by
  refine ho.moves hpc hpass hlock hown hbuf (hdescs ▸ ho.nodup p) (fun i hi => ?_) (fun i _ _ => by rw [hfree])
    (fun i hi hq => absurd (hdescs ▸ hi) hq) (fun r i hr hi hq => hr (ho.apart r p i hi (hdescs ▸ hq)))
    (fun r b i j k _ => hformed r b i j k) fun b i j k hc => hformed p b i j k (hchain b i j k hc)
  rw [hfree]
  exact ho.lt p i (hdescs ▸ hi)

end

section

variable (hf : Flight s) (hpc : s'.pc = update s.pc p q)
include hf hpc

theorem Flight.stays
    (hwaits : q.waits = (s.pc p).waits) (hrest : Rest s.disk s'.disk) (hseen : s'.seen = s.seen)
    (hpending : s'.pending = s.pending) (hbusy : s'.busy = s.busy)
    (hhist : s'.published = s.published ∧ s'.taken = s.taken ∧ s'.completed = s.completed ∧ s'.cleared = s.cleared)
    (hrun : s'.panicked = s.panicked) (hnew : q.chain = q.waits) : Flight s' := by
  have hw : ∀ r, (s'.pc r).waits = (s.pc r).waits :=
    forall_pc (P := fun r q => q.waits = (s.pc r).waits) hpc hwaits fun _ _ => rfl
  have havail : s'.avail = s.avail := by simp only [State.avail, hrest.availRing, hrest.availIdx, hseen]
  have hused : s'.used = s.used := by simp only [State.used, hrest.usedRing, hrest.usedIdx, hrest.deviceIdx]
  have hflight : s'.flight = s.flight := by rw [State.flight, State.flight, havail, hused, hpending]
  refine ⟨?_, hflight ▸ hf.nodup, fun h => ?_, forall_pc (P := fun _ q => ∀ b i j k, q.chain = some (b, i, j, k) →
    q.waits = none → s'.busy b = true) hpc (fun b i j k hc hn => ?_) fun r _ => hbusy ▸ hf.busy r,
    forall_pc (P := fun _ q => ∀ b i j k, q = .bump b i j k → s'.disk.availRing (s'.disk.availIdx % num) = i) hpc
      (fun b i j k hq => ?_) fun r _ => ?_, ?_, fun r hr => ?_, ?_, ?_, hrun.trans hf.running⟩
  · rw [hseen, hrest.availIdx, hrest.usedIdx, hrest.deviceIdx]
    exact hf.idx
  · simp only [hflight, hf.mem h, hw, hbusy]
  · rw [hnew, hn] at hc
    cases hc
  · rw [hq] at hnew
    cases hnew
  · rw [hrest.availRing, hrest.availIdx]
    exact hf.slot r
  · rw [hused, hrest.info]
    exact hf.status
  · rw [hpending] at hr
    simp only [hw]
    exact hf.pending r hr
  · rw [hhist.1, hhist.2.1, havail]
    exact hf.published
  · rw [hhist.2.2.1, hhist.2.2.2, hused, hrest.info]
    exact hf.completed

/-- A step of `p` from a place at which its head is in none of the three places to a place `q`. -/
theorem Flight.moves
    (hout : ∀ b h j k, (s.pc p).waits = some (b, h, j, k) → h ∉ s.flight)
    (hbuf : ∀ r b, r ≠ p → (s.pc r).buf = some b → s'.busy b = s.busy b)
    (hflight : s'.flight.Nodup ∧ ∀ h, h ∈ s'.flight ↔
      (∃ b j k, q.waits = some (b, h, j, k) ∧ s'.busy b = true) ∨ h ∈ s.flight)
    (hidx : s'.seen < idxMod ∧ s'.disk.availIdx < idxMod ∧ s'.disk.usedIdx < idxMod ∧ s'.disk.deviceIdx < idxMod)
    (hbusy : ∀ b i j k, q.chain = some (b, i, j, k) → q.waits = none → s'.busy b = true)
    (hslot : ∀ r b i j k, s'.pc r = .bump b i j k → s'.disk.availRing (s'.disk.availIdx % num) = i)
    (hused : s'.used = s.used) (hpending : s'.pending = s.pending)
    (hinfo : ∀ h ∈ s.used, s'.disk.info h = s.disk.info h) (hpublished : s'.published = s'.taken ++ s'.avail)
    (hhist : s'.completed = s.completed ∧ s'.cleared = s.cleared) (hrun : s'.panicked = s.panicked) : Flight s' := by
  have hself : s'.pc p = q := by rw [hpc, update_self]
  have hother : ∀ r, r ≠ p → s'.pc r = s.pc r := fun r hr => by rw [hpc, update_of_ne hr]
  have hkeep : ∀ r b h j k, r ≠ p → (s.pc r).waits = some (b, h, j, k) → s'.busy b = s.busy b := fun r b h j k hr hw =>
    hbuf r b hr (Pc.descs_of_chain (Pc.chain_of_waits hw)).2
  refine ⟨hidx, hflight.1, fun h => ?_, forall_pc (P := fun _ q => ∀ b i j k, q.chain = some (b, i, j, k) →
    q.waits = none → s'.busy b = true) hpc hbusy fun r hr b i j k hc hn => ?_, hslot, fun h hh => ?_, fun r hr => ?_,
    hpublished, ?_, hrun.trans hf.running⟩
  · rw [hflight.2 h, hf.mem h]
    constructor
    · rintro (⟨b, j, k, hw, hb⟩ | ⟨r, b, j, k, hw, hb⟩)
      · exact ⟨p, b, j, k, by rwa [hself], hb⟩
      · have hr : r ≠ p := by
          rintro rfl
          exact hout b h j k hw ((hf.mem h).mpr ⟨r, b, j, k, hw, hb⟩)
        exact ⟨r, b, j, k, by rwa [hother r hr], by rwa [hkeep r b h j k hr hw]⟩
    · rintro ⟨r, b, j, k, hw, hb⟩
      by_cases hr : r = p
      · rw [hr, hself] at hw
        exact .inl ⟨b, j, k, hw, hb⟩
      · rw [hother r hr] at hw
        exact .inr ⟨r, b, j, k, hw, by rwa [← hkeep r b h j k hr hw]⟩
  · rw [hbuf r b hr (Pc.descs_of_chain hc).2]
    exact hf.busy r b i j k hc hn
  · rw [hused] at hh
    rw [hinfo h hh]
    exact hf.status h hh
  · rw [hpending] at hr
    obtain ⟨t, b, j, k, hw, ha⟩ := hf.pending r hr
    have ht : t ≠ p := by
      rintro rfl
      exact hout b r.head j k hw (s.pending_subset hr)
    exact ⟨t, b, j, k, by rwa [hother t ht], ha⟩
  · rw [hhist.1, hhist.2, hused, hf.completed]
    congr 1
    refine map_congr_left fun h hh => ?_
    rw [hinfo h hh]

theorem Flight.leaves
    (hout : ∀ b h j k, (s.pc p).waits = some (b, h, j, k) → h ∉ s.flight)
    (hbuf : ∀ r b, r ≠ p → (s.pc r).buf = some b → s'.busy b = s.busy b) (hq : q.waits = none)
    (hbusy : ∀ b i j k, q.chain = some (b, i, j, k) → s'.busy b = true)
    (hslot : ∀ r b i j k, s'.pc r = .bump b i j k → s'.disk.availRing (s'.disk.availIdx % num) = i)
    (hidx : s'.seen = s.seen ∧ s'.disk.availIdx = s.disk.availIdx ∧ s'.disk.usedIdx = s.disk.usedIdx ∧
      s'.disk.deviceIdx = s.disk.deviceIdx)
    (havail : s'.avail = s.avail) (hused : s'.used = s.used) (hpending : s'.pending = s.pending)
    (hinfo : ∀ h ∈ s.used, s'.disk.info h = s.disk.info h)
    (hhist : s'.published = s.published ∧ s'.taken = s.taken ∧ s'.completed = s.completed ∧ s'.cleared = s.cleared)
    (hrun : s'.panicked = s.panicked) : Flight s' := by
  have hflight : s'.flight = s.flight := by rw [State.flight, State.flight, havail, hused, hpending]
  refine hf.moves hpc hout hbuf ⟨hflight ▸ hf.nodup, fun h => ?_⟩ ?_ (fun b i j k hc _ => hbusy b i j k hc) hslot hused
    hpending hinfo ?_ hhist.2.2 hrun
  · rw [hflight, hq]
    exact ⟨.inr, fun h => h.resolve_left nofun⟩
  · rw [hidx.1, hidx.2.1, hidx.2.2.1, hidx.2.2.2]
    exact hf.idx
  · rw [hhist.1, hhist.2.1, havail]
    exact hf.published

end

section

variable (ho : Own s)
include ho

/-- A step of `p` that moves it between places without a chain, and leaves the disk alone. -/
theorem idle_step (hf : Flight s) {q₀ : Pc} (hpc₀ : s.pc p = q₀)
    (hs' : s' = { s with lock := s'.lock }.setPc p q)
    (hpass : Passes s s' p) (hlock : q.locked = true ↔ s'.lock = some (.proc p))
    (hbuf : ∀ b, q.buf = some b → s.owner b = some p) (hdescs : q.descs = q₀.descs)
    (hchain : q.chain = q₀.chain) (hwaits : q.waits = q₀.waits) (hnew : q.chain = q.waits) :
    Own s' ∧ Flight s' := by
  rw [← hpc₀] at hdescs hchain hwaits
  have hpc : s'.pc = update s.pc p q := by rw [hs']; rfl
  have hdisk : s'.disk = s.disk := by rw [hs']; rfl
  refine ⟨ho.stays hpc hpass hlock (by rw [hs']; rfl) hbuf hdescs (by rw [hdisk]) (fun b i j k h => hchain ▸ h) ?_, ?_⟩
  · rw [hdisk]
    exact ho.formed
  · refine hf.stays hpc hwaits (by rw [hdisk]; exact .refl _) ?_ ?_ ?_ ⟨?_, ?_, ?_, ?_⟩ ?_ hnew <;> (rw [hs']; rfl)

theorem step_alloc (hf : Flight s) {write : Bool} (hpc : s.pc p = .alloc b write)
    (hs : stepRun s p = some s') : Own s' ∧ Flight s' := by
  have hlocked : s.lock = some (.proc p) := (ho.lock p).mp (by rw [hpc]; rfl)
  have hown : s.owner b = some p := ho.owner p b (by rw [hpc]; rfl)
  have hformed : ∀ d', (∀ l, s.disk.free l = false → d'.desc l = s.disk.desc l) → Rest s.disk d' →
      ∀ r b i j k, (s.pc r).chain = some (b, i, j, k) → Formed d' b i j k := by
    intro d' hdesc hrest r b i j k hc
    refine (ho.formed r b i j k hc).congr (fun l hl => hdesc l (ho.lt r l ?_).2) (by rw [hrest.info])
    rw [(Pc.descs_of_chain hc).1]
    exact hl
  simp only [stepRun, hpc] at hs
  cases hal : s.disk.alloc3Desc with
  | panicked =>
    have := alloc3Desc_spec s.disk
    rw [hal] at this
    cases this
  | failed d' =>
    have hspec := alloc3Desc_spec s.disk
    rw [hal] at hspec
    cases hspec with
    | failed _ hfree hdesc hrest =>
      simp only [hal] at hs
      cases hs
      refine ⟨ho.stays rfl (passes_of (.inr hlocked) (.inl rfl)) ⟨nofun, nofun⟩ rfl ?_ (by rw [hpc]; rfl) hfree nofun
        (hformed d' hdesc hrest), hf.stays rfl (by rw [hpc]; rfl) hrest rfl rfl rfl ⟨rfl, rfl, rfl, rfl⟩ rfl rfl⟩
      rintro _ ⟨⟩
      exact hown
  | ok i j k d' =>
    have hspec := alloc3Desc_spec s.disk
    rw [hal] at hspec
    cases hspec with
    | ok _ _ _ _ hnodup hlt hfree hdesc hrest =>
      simp only [hal] at hs
      cases hs
      have hd' : ∀ l ∈ [i, j, k], d'.free l = false := by
        intro l hl
        by_contra hne
        exact ((hfree l).mp (by simpa using hne)).2 hl
      refine ⟨ho.moves rfl (fun _ _ => Iff.rfl) ⟨fun _ => hlocked, fun _ => rfl⟩ rfl ?_ hnodup
        (fun l hl => ⟨(hlt l hl).1, hd' l hl⟩) (fun l _ hl => ?_) ?_ (fun r l _ hr hl => ?_)
        (fun r b i j k _ => hformed d' (fun l _ => by rw [hdesc]) hrest r b i j k) nofun,
        hf.stays rfl (by rw [hpc]; rfl) hrest rfl rfl rfl ⟨rfl, rfl, rfl, rfl⟩ rfl rfl⟩
      · rintro _ ⟨⟩
        exact hown
      · rw [Bool.eq_iff_iff]
        exact (hfree l).trans ⟨fun h => h.1, fun h => ⟨h, hl⟩⟩
      · rw [hpc]
        exact fun _ => False.elim ∘ not_mem_nil
      · -- the descriptors of the others are not free
        exact absurd (hlt l hl).2 (by simp [(ho.lt r l hr).2])

theorem step_fill (hf : Flight s) {write : Bool} (hpc : s.pc p = .fill b write i j k)
    (hs : stepRun s p = some s') : Own s' ∧ Flight s' := by
  have hlocked : s.lock = some (.proc p) := (ho.lock p).mp (by rw [hpc]; rfl)
  have hown : s.owner b = some p := ho.owner p b (by rw [hpc]; rfl)
  have hdescs : (s.pc p).descs = [i, j, k] := by rw [hpc]; rfl
  have hnodup : [i, j, k].Nodup := hdescs ▸ ho.nodup p
  have hbuf : (s.pc p).buf = some b := by rw [hpc]; rfl
  have hwait : (s.pc p).waits = none := by rw [hpc]; rfl
  simp only [stepRun, hpc] at hs
  cases hs
  refine ⟨ho.moves rfl (fun _ _ => Iff.rfl) ⟨fun _ => hlocked, fun _ => rfl⟩ rfl ?_ hnodup (fun l hl => ?_)
    (fun _ _ _ => rfl) (fun l hl hl' => ?_) (fun r l hr hl hl' => ?_) (fun r b' i' j' k' hr hc => ?_)
    fun b' i' j' k' hc => ?_, ?_⟩
  · rintro _ ⟨⟩
    exact hown
  · exact ho.lt p l (hdescs ▸ hl)
  · rw [hdescs] at hl
    exact absurd hl hl'
  · exact hr (ho.apart r p l hl (hdescs ▸ hl'))
  · -- the chain of another process shares no descriptor with this one
    have hdesc := (Pc.descs_of_chain hc).1
    have hne : ∀ l ∈ [i', j', k'], l ∉ [i, j, k] := fun l hl hl' =>
      hr (ho.apart r p l (hdesc ▸ hl) (hdescs ▸ hl'))
    refine (ho.formed r b' i' j' k' hc).congr (fun l hl => ?_) ?_
    · have hl := hne l hl
      simp only [mem_cons, not_mem_nil, or_false, not_or] at hl
      simp [Disk.format, State.setPc, hl.1, hl.2.1, hl.2.2]
    · have hi' := hne i' mem_cons_self
      simp only [mem_cons, not_mem_nil, or_false, not_or] at hi'
      simp [Disk.format, State.setPc, hi'.1]
  · cases hc
    exact formed_format _ _ _ _ hnodup
  · refine hf.leaves rfl (fun b' h j' k' hw => ?_) (fun r b' hr hb => ?_) rfl (fun b' i' j' k' hc => ?_)
      (fun r b' i' j' k' hr => ?_) ⟨rfl, rfl, rfl, rfl⟩ rfl rfl rfl (fun h hh => ?_) ⟨rfl, rfl, rfl, rfl⟩ rfl
    · rw [hwait] at hw
      cases hw
    · exact update_of_ne (ho.buf_ne hbuf hb hr) _ _
    · cases hc
      exact update_self ..
    · have hrp : r ≠ p := by
        rintro rfl
        simp [State.setPc] at hr
      simp only [State.setPc, update_of_ne hrp] at hr
      exact hf.slot r b' i' j' k' hr
    · have hne : h ≠ i := by
        rintro rfl
        exact hf.not_mem ho (hdescs ▸ mem_cons_self) hwait (s.used_subset hh)
      simp [Disk.format, State.setPc, hne]

theorem Own.alone {q : Pid} (hp : (s.pc p).locked = true) (hq : (s.pc q).locked = true) : q = p := by
  have h := ((ho.lock q).mp hq).symm.trans ((ho.lock p).mp hp)
  exact Holder.proc.inj (Option.some.inj h)

theorem Own.bump_self {r : Pid} (hp : (s.pc p).locked = true)
    (hpc : s'.pc = update s.pc p q) (hr : s'.pc r = .bump b i j k) : q = .bump b i j k := by
  rw [hpc] at hr
  by_cases hrp : r = p
  · rwa [hrp, update_self] at hr
  · rw [update_of_ne hrp] at hr
    exact absurd (ho.alone hp (by rw [hr]; rfl)) hrp

theorem step_ring (hf : Flight s) (hpc : s.pc p = .ring b i j k)
    (hs : stepRun s p = some s') : Own s' ∧ Flight s' := by
  have hlocked : s.lock = some (.proc p) := (ho.lock p).mp (by rw [hpc]; rfl)
  have hchain : (s.pc p).chain = some (b, i, j, k) := by rw [hpc]; rfl
  have hwait : (s.pc p).waits = none := by rw [hpc]; rfl
  have hroom := hf.room ho hchain hwait
  simp only [stepRun, hpc] at hs
  cases hs
  refine ⟨ho.stays rfl (fun _ _ => Iff.rfl) ⟨fun _ => hlocked, fun _ => rfl⟩ rfl (fun b' hb => ?_) (by rw [hpc]; rfl) rfl
    (fun b' i' j' k' hc => by rw [hchain]; exact hc) (fun r b' i' j' k' hc => ?_), ?_⟩
  · exact ho.owner p b' (by rw [hpc]; exact hb)
  · exact (ho.formed r b' i' j' k' hc).congr (fun _ _ => rfl) rfl
  · refine hf.leaves rfl (fun b' h j' k' hw => ?_) (fun _ _ _ _ => rfl) rfl (fun b' i' j' k' hc => ?_)
      (fun r b' i' j' k' hr => ?_) ⟨rfl, rfl, rfl, rfl⟩ ?_ rfl rfl (fun _ _ => rfl) ⟨rfl, rfl, rfl, rfl⟩ rfl
    · rw [hwait] at hw
      cases hw
    · exact hf.busy p b' i' j' k' (by rw [hchain]; exact hc) hwait
    · cases ho.bump_self (by rw [hpc]; rfl) rfl hr
      exact update_self ..
    · exact Ring.entries_update hf.idx.1 hf.idx.2.1 (by decide) hroom i

theorem step_bump (hf : Flight s) (hpc : s.pc p = .bump b i j k)
    (hs : stepRun s p = some s') : Own s' ∧ Flight s' := by
  have hlocked : s.lock = some (.proc p) := (ho.lock p).mp (by rw [hpc]; rfl)
  have hchain : (s.pc p).chain = some (b, i, j, k) := by rw [hpc]; rfl
  have hwait : (s.pc p).waits = none := by rw [hpc]; rfl
  have hroom := hf.room ho hchain hwait
  have hbusy := hf.busy p b i j k hchain hwait
  have hnot : i ∉ s.flight := hf.not_mem ho (p := p) (by rw [hpc]; exact mem_cons_self) hwait
  simp only [stepRun, hpc] at hs
  cases hs
  have havail : Ring.entries num idxMod s.disk.availRing s.seen ((s.disk.availIdx + 1) % idxMod) = s.avail ++ [i] := by
    rw [Ring.entries_push hf.idx.1 hf.idx.2.1 (by decide) (by simp only [num, idxMod] at hroom ⊢; omega),
      hf.slot p b i j k hpc]
    rfl
  refine ⟨ho.stays rfl (fun _ _ => Iff.rfl) ⟨fun _ => hlocked, fun _ => rfl⟩ rfl (fun b' hb => ?_) (by rw [hpc]; rfl) rfl
    (fun b' i' j' k' hc => by rw [hchain]; exact hc) (fun r b' i' j' k' hc => ?_), ?_⟩
  · exact ho.owner p b' (by rw [hpc]; exact hb)
  · exact (ho.formed r b' i' j' k' hc).congr (fun _ _ => rfl) rfl
  · have hflight : ((s.avail ++ [i]) ++ (s.pending.map Req.head ++ s.used)).Perm (i :: s.flight) := by
      rw [append_assoc]
      exact perm_middle
    refine hf.moves rfl (fun b' h j' k' hw => ?_) (fun _ _ _ _ => rfl) ⟨?_, fun h => ?_⟩
      ⟨hf.idx.1, Nat.mod_lt _ (by decide), hf.idx.2.2⟩ (by simp [Pc.waits]) (fun r b' i' j' k' hr => ?_) rfl rfl
      (fun _ _ => rfl) ?_ ⟨rfl, rfl⟩ rfl
    · rw [hwait] at hw
      cases hw
    · rw [State.flight, State.avail]
      simp only [State.setPc, havail]
      exact hflight.nodup_iff.mpr (nodup_cons.mpr ⟨hnot, hf.nodup⟩)
    · rw [State.flight, State.avail]
      simp only [State.setPc, havail]
      refine hflight.mem_iff.trans ?_
      rw [mem_cons]
      refine or_congr_left ⟨?_, ?_⟩
      · rintro rfl
        exact ⟨b, j, k, rfl, hbusy⟩
      · rintro ⟨_, _, _, ⟨⟩, -⟩
        rfl
    · cases ho.bump_self (by rw [hpc]; rfl) rfl hr
    · rw [State.avail]
      simp only [State.setPc, havail, hf.published, append_assoc]

theorem step_test (hf : Flight s) (hpc : s.pc p = .test b i j k)
    (hs : stepRun s p = some s') : Own s' ∧ Flight s' := by
  have hlocked : s.lock = some (.proc p) := (ho.lock p).mp (by rw [hpc]; rfl)
  have hchain : (s.pc p).chain = some (b, i, j, k) := by rw [hpc]; rfl
  have hdescs : (s.pc p).descs = [i, j, k] := by rw [hpc]; rfl
  have hnodup : [i, j, k].Nodup := hdescs ▸ ho.nodup p
  simp only [stepRun, hpc] at hs
  split at hs
  · cases hs
    exact idle_step ho hf hpc rfl (passes_of (.inr hlocked) (.inl rfl)) ⟨nofun, nofun⟩
      (fun b' hb => ho.owner p b' (by rw [hpc]; exact hb)) rfl rfl rfl rfl
  · next hb =>
      have hb : s.busy b = false := by simpa using hb
      -- the request has been completed, so that its head is in none of the three places
      have hnot : i ∉ s.flight := by
        intro hmem
        obtain ⟨r, b', j', k', hw, hb'⟩ := (hf.mem i).mp hmem
        obtain rfl := ho.unique hchain (Pc.chain_of_waits hw)
        rw [Pc.chain_of_waits hw] at hchain
        cases hchain
        rw [hb] at hb'
        cases hb'
      obtain ⟨d', hd', hrest, hfree, hdesc⟩ := freeAll_spec (d := s.disk.forget i) hnodup
        fun l hl => ho.lt p l (hdescs ▸ hl)
      have hinfo : ∀ h, h ≠ i → d'.info h = s.disk.info h := by
        intro h hh
        rw [hrest.info]
        exact update_of_ne hh _ _
      have hfc : (s.disk.forget i).freeChain num i = (s.disk.forget i).freeAll [i, j, k] :=
        (ho.formed p b i j k hchain).freeChain_eq hnodup rfl
      rw [hfc, hd'] at hs
      cases hs
      refine ⟨ho.moves rfl (passes_of (.inr hlocked) (.inl rfl)) ⟨nofun, nofun⟩ rfl nofun nodup_nil nofun
        (fun l hl _ => ?_) (fun l hl _ => ?_) (fun _ _ _ _ => not_mem_nil) (fun r b' i' j' k' hr hc => ?_) nofun, ?_⟩
      · rw [hdescs] at hl
        rw [Bool.eq_iff_iff]
        exact (hfree l).trans ⟨fun h => h.resolve_right hl, .inl⟩
      · rw [hdescs] at hl
        exact (hfree l).mpr (.inr hl)
      · have hdesc' := (Pc.descs_of_chain hc).1
        have hne : ∀ l ∈ [i', j', k'], l ∉ [i, j, k] := fun l hl hl' =>
          hr (ho.apart r p l (hdesc' ▸ hl) (hdescs ▸ hl'))
        refine (ho.formed r b' i' j' k' hc).congr (fun l hl => hdesc l (hne l hl)) ?_
        have hi' : i' ≠ i := by
          rintro rfl
          exact hne i' mem_cons_self mem_cons_self
        exact congrArg Info.b (hinfo i' hi')
      · refine hf.leaves rfl (fun b' h j' k' hw => ?_) (fun _ _ _ _ => rfl) rfl nofun (fun r b' i' j' k' hr => ?_) ?_ ?_ ?_
          rfl (fun h hh => ?_) ⟨rfl, rfl, rfl, rfl⟩ rfl
        · rw [Pc.chain_of_waits hw] at hchain
          cases hchain
          exact hnot
        · cases ho.bump_self (by rw [hpc]; rfl) rfl hr
        · exact ⟨rfl, hrest.availIdx, hrest.usedIdx, hrest.deviceIdx⟩
        · simp only [State.avail, State.setPc, hrest.availRing, hrest.availIdx]
          rfl
        · simp only [State.used, State.setPc, hrest.usedRing, hrest.usedIdx, hrest.deviceIdx]
          rfl
        · exact hinfo h fun e => hnot (e ▸ s.used_subset hh)

theorem step_run (hf : Flight s) (hs : stepRun s p = some s') : Own s' ∧ Flight s' := by
  cases hpc : s.pc p with
  | out => simp [stepRun, hpc] at hs
  | alloc b write => exact step_alloc ho hf hpc hs
  | fill b write i j k => exact step_fill ho hf hpc hs
  | ring b i j k => exact step_ring ho hf hpc hs
  | bump b i j k => exact step_bump ho hf hpc hs
  | test b i j k => exact step_test ho hf hpc hs
  | sleepFree b write =>
    simp only [stepRun, hpc] at hs
    obtain ⟨hfree, rfl⟩ := guarded hs
    exact idle_step ho hf hpc rfl (passes_of (.inl hfree) (.inr rfl)) ⟨fun _ => rfl, fun _ => rfl⟩
      (fun b' hb => ho.owner p b' (by rw [hpc]; exact hb)) rfl rfl rfl rfl
  | sleepBuf b i j k =>
    simp only [stepRun, hpc] at hs
    obtain ⟨hfree, rfl⟩ := guarded hs
    exact idle_step ho hf hpc rfl (passes_of (.inl hfree) (.inr rfl)) ⟨fun _ => rfl, fun _ => rfl⟩
      (fun b' hb => ho.owner p b' (by rw [hpc]; exact hb)) rfl rfl rfl rfl

/-! ### The handler and the device -/

theorem Own.outside (hpc : s'.pc = s.pc) (hown : s'.owner = s.owner)
    (hlock : ∀ p, s'.lock = some (.proc p) ↔ s.lock = some (.proc p)) (hfree : s'.disk.free = s.disk.free)
    (hdesc : s'.disk.desc = s.disk.desc) (hinfo : ∀ h, (s'.disk.info h).b = (s.disk.info h).b) : Own s' := by
  refine ⟨fun p => ?_, ?_, ?_, ?_, ?_, ?_, fun p b i j k hc => ?_⟩
  · rw [hpc, hlock p]
    exact ho.lock p
  · rw [hpc, hown]
    exact ho.owner
  · rw [hpc]
    exact ho.nodup
  · rw [hpc, hfree]
    exact ho.lt
  · rw [hpc, hfree]
    exact ho.used
  · rw [hpc]
    exact ho.apart
  · rw [hpc] at hc
    exact (ho.formed p b i j k hc).congr (fun l _ => by rw [hdesc]) (hinfo i)

/-- What the handler finds in the used ring: the head of a request whose process waits for its buffer. -/
theorem Flight.next (hf : Flight s) (hne : s.disk.usedIdx ≠ s.disk.deviceIdx) :
    ∃ p b j k, (s.pc p).waits = some (b, s.disk.usedRing (s.disk.usedIdx % num), j, k) ∧ s.busy b = true ∧
      (s.disk.info (s.disk.usedRing (s.disk.usedIdx % num))).b = some b ∧
      (s.disk.info (s.disk.usedRing (s.disk.usedIdx % num))).status = 0 := by
  have hmem : s.disk.usedRing (s.disk.usedIdx % num) ∈ s.used := by
    rw [State.used, Ring.entries_pop hf.idx.2.2.1 hf.idx.2.2.2 (by decide) hne]
    exact mem_cons_self
  obtain ⟨p, b, j, k, hw, hb⟩ := (hf.mem _).mp (s.used_subset hmem)
  exact ⟨p, b, j, k, hw, hb, (ho.formed p _ _ _ _ (Pc.chain_of_waits hw)).info, hf.status _ hmem⟩

theorem step_intrNext (hf : Flight s) (hne : s.disk.usedIdx ≠ s.disk.deviceIdx) :
    Own (stepIntr s) ∧ Flight (stepIntr s) := by
  obtain ⟨p, b, j, k, hw, hb, hinfo, hstatus⟩ := hf.next ho hne
  have hpop : s.used = s.disk.usedRing (s.disk.usedIdx % num) ::
      Ring.entries num idxMod s.disk.usedRing ((s.disk.usedIdx + 1) % idxMod) s.disk.deviceIdx :=
    Ring.entries_pop hf.idx.2.2.1 hf.idx.2.2.2 (by decide) hne
  have hstep : stepIntr s = { s with
        busy := update s.busy b false
        disk := { s.disk with usedIdx := (s.disk.usedIdx + 1) % idxMod }
        cleared := s.cleared ++ [(s.disk.usedRing (s.disk.usedIdx % num), some b)] } := by
    simp only [stepIntr, hstatus, ne_eq, not_true_eq_false, if_false, hinfo]
  rw [hstep]
  refine ⟨ho.outside rfl rfl (fun _ => Iff.rfl) rfl rfl fun _ => rfl, ?_⟩
  -- the head leaves the used ring, and the buffer is cleared
  have hflight : s.flight.Perm (s.disk.usedRing (s.disk.usedIdx % num) :: (s.avail ++ (s.pending.map Req.head ++
      Ring.entries num idxMod s.disk.usedRing ((s.disk.usedIdx + 1) % idxMod) s.disk.deviceIdx))) := by
    rw [State.flight, hpop, ← append_assoc, ← append_assoc]
    exact perm_middle
  have hsplit := nodup_cons.mp (hflight.nodup_iff.mp hf.nodup)
  have hbp : (s.pc p).buf = some b := (Pc.descs_of_chain (Pc.chain_of_waits hw)).2
  have hsame : ∀ r b' h' j' k', (s.pc r).waits = some (b', h', j', k') →
      (b' = b ↔ h' = s.disk.usedRing (s.disk.usedIdx % num)) := by
    intro r b' h' j' k' hr
    have hchain := Pc.chain_of_waits hr
    constructor
    · rintro rfl
      obtain rfl : r = p := by
        by_contra hne
        exact ho.buf_ne hbp (Pc.descs_of_chain hchain).2 hne rfl
      rw [hw] at hr
      cases hr
      rfl
    · rintro rfl
      obtain rfl := ho.unique hchain (Pc.chain_of_waits hw)
      rw [hw] at hr
      cases hr
      rfl
  refine ⟨⟨hf.idx.1, hf.idx.2.1, Nat.mod_lt _ (by decide), hf.idx.2.2.2⟩, hsplit.2, fun h => ?_,
    fun r b' i' j' k' hc hn => ?_, hf.slot, fun h hh => ?_, hf.pending, hf.published, ?_, hf.running⟩
  · have hiff : h ∈ s.flight ∧ h ≠ s.disk.usedRing (s.disk.usedIdx % num) ↔
        h ∈ s.avail ++ (s.pending.map Req.head ++
          Ring.entries num idxMod s.disk.usedRing ((s.disk.usedIdx + 1) % idxMod) s.disk.deviceIdx) := by
      rw [hflight.mem_iff, mem_cons]
      constructor
      · rintro ⟨h1 | h1, h2⟩
        · exact absurd h1 h2
        · exact h1
      · exact fun h1 => ⟨.inr h1, fun e => hsplit.1 (e ▸ h1)⟩
    refine hiff.symm.trans ?_
    rw [hf.mem h]
    constructor
    · rintro ⟨⟨r, b', j', k', hr, hb'⟩, hne⟩
      have hbne : b' ≠ b := fun e => hne ((hsame r b' h j' k' hr).mp e)
      exact ⟨r, b', j', k', hr, (update_of_ne hbne _ _).trans hb'⟩
    · rintro ⟨r, b', j', k', hr, hb'⟩
      have hbne : b' ≠ b := by
        rintro rfl
        simp at hb'
      have hb' : s.busy b' = true := (update_of_ne hbne _ _).symm.trans hb'
      exact ⟨⟨r, b', j', k', hr, hb'⟩, fun e => hbne ((hsame r b' h j' k' hr).mpr e)⟩
  · have hrp : r ≠ p := by
      rintro rfl
      rw [hw] at hn
      cases hn
    have hbne := ho.buf_ne hbp (Pc.descs_of_chain hc).2 hrp
    exact (update_of_ne hbne _ _).trans (hf.busy r b' i' j' k' hc hn)
  · refine hf.status h ?_
    rw [hpop]
    exact mem_cons_of_mem _ hh
  · have hcomp := hf.completed
    rw [hpop, map_cons, hinfo] at hcomp
    rw [hcomp, append_assoc]
    rfl

theorem step_take (hf : Flight s) (hne : s.seen ≠ s.disk.availIdx) (hs : s' = { s with
      seen := (s.seen + 1) % idxMod
      pending := s.pending ++ [s.disk.request (s.disk.availRing (s.seen % num))]
      taken := s.taken ++ [s.disk.availRing (s.seen % num)] }) : Own s' ∧ Flight s' := by
  have hpop : s.avail = s.disk.availRing (s.seen % num) ::
      Ring.entries num idxMod s.disk.availRing ((s.seen + 1) % idxMod) s.disk.availIdx :=
    Ring.entries_pop hf.idx.1 hf.idx.2.1 (by decide) hne
  have hmem : s.disk.availRing (s.seen % num) ∈ s.flight := by
    rw [State.flight, hpop]
    exact mem_cons_self
  obtain ⟨p, b, j, k, hw, -⟩ := (hf.mem _).mp hmem
  have hreq := (ho.formed p _ _ _ _ (Pc.chain_of_waits hw)).request_eq
  have hflight : s'.flight.Perm s.flight := by
    subst hs
    rw [State.flight, State.flight, hpop]
    simp only [map_append, map_cons, map_nil, cons_append]
    refine List.Perm.trans ?_ perm_middle
    refine List.Perm.append_left _ ?_
    rw [append_assoc]
    exact perm_middle
  subst hs
  refine ⟨ho.outside rfl rfl (fun _ => Iff.rfl) rfl rfl fun _ => rfl, ⟨Nat.mod_lt _ (by decide), hf.idx.2⟩,
    hflight.nodup_iff.mpr hf.nodup, fun h => hflight.mem_iff.trans (hf.mem h), hf.busy, hf.slot, hf.status,
    fun r hr => ?_, ?_, hf.completed, hf.running⟩
  · rcases mem_append.mp hr with hr | hr
    · exact hf.pending r hr
    · obtain rfl := mem_singleton.mp hr
      rw [hreq]
      exact ⟨p, b, j, k, hw, rfl⟩
  · have hpub := hf.published
    rw [hpop] at hpub
    rw [hpub, append_assoc]
    rfl

theorem step_complete (hf : Flight s) {n : Nat} {r : Req} (hr : s.pending[n]? = some r)
    (hs : s' = { s with
      disk := { s.disk.writeStatus r with
        usedRing := update s.disk.usedRing (s.disk.deviceIdx % num) r.head
        deviceIdx := (s.disk.deviceIdx + 1) % idxMod }
      pending := s.pending.eraseIdx n
      completed := s.completed ++ [r] }) : Own s' ∧ Flight s' := by
  have hrp : r ∈ s.pending := mem_of_getElem? hr
  obtain ⟨p, b, j, k, hw, haddrs⟩ := hf.pending r hrp
  have hinfo := (ho.formed p _ _ _ _ (Pc.chain_of_waits hw)).info
  have hwrite : s.disk.writeStatus r =
      { s.disk with info := update s.disk.info r.head { s.disk.info r.head with status := 0 } } := by
    simp [Disk.writeStatus, haddrs]
  have hb : ∀ h, (update s.disk.info r.head { s.disk.info r.head with status := 0 } h).b =
      (s.disk.info h).b := by
    intro h
    by_cases hh : h = r.head
    · subst hh
      rw [update_self]
    · rw [update_of_ne hh]
  have hperm : (r :: s.pending.eraseIdx n).Perm s.pending := by
    obtain ⟨hn, rfl⟩ := List.getElem?_eq_some_iff.mp hr
    exact getElem_cons_eraseIdx_perm hn
  have hroom : Ring.count idxMod s.disk.usedIdx s.disk.deviceIdx < num := by
    have hle := length_le_num hf.nodup fun h hh => hf.lt ho hh
    have hpos := length_pos_of_mem hrp
    rw [State.flight, length_append, length_append, length_map, State.used, Ring.length_entries] at hle
    omega
  have hused : Ring.entries num idxMod (update s.disk.usedRing (s.disk.deviceIdx % num) r.head) s.disk.usedIdx
      ((s.disk.deviceIdx + 1) % idxMod) = s.used ++ [r.head] := by
    rw [Ring.entries_push hf.idx.2.2.1 hf.idx.2.2.2 (by decide) (by simp only [num, idxMod] at hroom ⊢; omega),
      Ring.entries_update hf.idx.2.2.1 hf.idx.2.2.2 (by decide) hroom, update_self]
    rfl
  rw [hwrite] at hs
  have hflight : s'.flight.Perm s.flight := by
    have h1 : (s.pending.map Req.head).Perm (r.head :: (s.pending.eraseIdx n).map Req.head) := (hperm.map Req.head).symm
    subst hs
    rw [State.flight, State.flight]
    simp only [State.used, hused]
    refine List.Perm.append_left _ ?_
    calc ((s.pending.eraseIdx n).map Req.head ++ (s.used ++ [r.head])).Perm
          (r.head :: ((s.pending.eraseIdx n).map Req.head ++ s.used)) := by
            rw [← append_assoc]
            exact perm_append_singleton _ _
      _ = (r.head :: (s.pending.eraseIdx n).map Req.head) ++ s.used := rfl
      _ |>.Perm (s.pending.map Req.head ++ s.used) := h1.symm.append_right _
  subst hs
  refine ⟨ho.outside rfl rfl (fun _ => Iff.rfl) rfl rfl hb, ⟨hf.idx.1, hf.idx.2.1, hf.idx.2.2.1, Nat.mod_lt _ (by decide)⟩,
    hflight.nodup_iff.mpr hf.nodup, fun h => hflight.mem_iff.trans (hf.mem h), hf.busy, hf.slot, fun h hh => ?_,
    fun r' hr' => ?_, hf.published, ?_, hf.running⟩
  · by_cases hhr : h = r.head
    · subst hhr
      simp
    · simp only [State.used, hused, mem_append, mem_singleton, hhr, or_false] at hh
      simp only [update_of_ne hhr]
      exact hf.status h hh
  · exact hf.pending r' (hperm.subset (mem_cons_of_mem _ hr'))
  · have hbuf : r.buf = some b := by simp [Req.buf, haddrs]
    calc (s.completed ++ [r]).map (fun r => (r.head, r.buf))
        = (s.cleared ++ s.used.map fun h => (h, (s.disk.info h).b)) ++ [(r.head, some b)] := by
            rw [map_append, hf.completed, map_singleton, hbuf]
      _ = s.cleared ++ (s.used ++ [r.head]).map fun h => (h, (s.disk.info h).b) := by
            rw [map_append, map_singleton, hinfo, append_assoc]
      _ = s.cleared ++ (s.used ++ [r.head]).map fun h =>
            (h, (update s.disk.info r.head { s.disk.info r.head with status := 0 } h).b) := by
            simp only [hb]
      _ = _ := by
            rw [← hused]
            rfl

/-! ### Whole runs -/

theorem step_inv {e : Event} (hf : Flight s) (hs : step s e = some s') : Own s' ∧ Flight s' := by
  have hlocks : ∀ b o, (∀ p, (s.pc p).buf = some b → o = some p) →
      Own { s with owner := update s.owner b o } := by
    intro b o h
    refine ⟨ho.lock, fun p b' hb => ?_, ho.nodup, ho.lt, ho.used, ho.apart, ho.formed⟩
    by_cases hbb : b' = b
    · subst hbb
      simp [h p hb]
    · simpa [hbb] using ho.owner p b' hb
  cases e with
  | lockBuf p b =>
    obtain ⟨hfree, rfl⟩ := guarded hs
    refine ⟨hlocks b (some p) fun q hq => ?_, ⟨hf.1, hf.2, hf.3, hf.4, hf.5, hf.6, hf.7, hf.8, hf.9, hf.10⟩⟩
    rw [ho.owner q b hq] at hfree
    cases hfree
  | unlockBuf p b =>
    obtain ⟨⟨hown, hpc⟩, rfl⟩ := guarded hs
    refine ⟨hlocks b none fun q hq => ?_, ⟨hf.1, hf.2, hf.3, hf.4, hf.5, hf.6, hf.7, hf.8, hf.9, hf.10⟩⟩
    obtain rfl : q = p := Option.some.inj ((ho.owner q b hq).symm.trans hown)
    rw [hpc] at hq
    cases hq
  | recycle b blockno =>
    obtain ⟨-, rfl⟩ := guarded hs
    exact ⟨⟨ho.1, ho.2, ho.3, ho.4, ho.5, ho.6, ho.7⟩,
      ⟨hf.1, hf.2, hf.3, hf.4, hf.5, hf.6, hf.7, hf.8, hf.9, hf.10⟩⟩
  | rw p b write =>
    obtain ⟨⟨hown, hpc, hfree⟩, rfl⟩ := guarded hs
    refine idle_step ho hf hpc rfl (passes_of (.inl hfree) (.inr rfl)) ⟨fun _ => rfl, fun _ => rfl⟩ (fun b' hb => ?_)
      rfl rfl rfl rfl
    cases hb
    exact hown
  | run p => exact step_run ho hf hs
  | intr =>
    obtain ⟨hfree, rfl⟩ := guarded hs
    refine ⟨ho.outside rfl rfl (fun p => ?_) rfl rfl fun _ => rfl,
      ⟨hf.1, hf.2, hf.3, hf.4, hf.5, hf.6, hf.7, hf.8, hf.9, hf.10⟩⟩
    simp [hfree]
  | intrNext =>
    obtain ⟨⟨-, hne⟩, rfl⟩ := guarded hs
    exact step_intrNext ho hf hne
  | intrRet =>
    obtain ⟨⟨hlock, -⟩, rfl⟩ := guarded hs
    refine ⟨ho.outside rfl rfl (fun p => ?_) rfl rfl fun _ => rfl,
      ⟨hf.1, hf.2, hf.3, hf.4, hf.5, hf.6, hf.7, hf.8, hf.9, hf.10⟩⟩
    simp [hlock]
  | take =>
    obtain ⟨hne, hs⟩ := guarded hs
    exact step_take ho hf hne hs.symm
  | complete n =>
    simp only [Virtio.step] at hs
    split at hs
    · next r hr => exact step_complete ho hf hr (Option.some.inj hs).symm
    · cases hs

end

end

theorem inv_init (blockno : Buf → Nat) : Own (init blockno) ∧ Flight (init blockno) := by
  have hpos : 0 < idxMod := by decide
  have havail : (init blockno).avail = [] := Ring.entries_self hpos
  have hused : (init blockno).used = [] := Ring.entries_self hpos
  have hflight : (init blockno).flight = [] := by rw [State.flight, havail, hused]; rfl
  refine ⟨⟨fun p => ⟨nofun, nofun⟩, nofun, fun p => nodup_nil, nofun, nofun, nofun, nofun⟩,
    ⟨⟨hpos, hpos, hpos, hpos⟩, ?_, fun h => ?_, nofun, nofun, ?_, nofun, ?_, ?_, rfl⟩⟩
  · rw [hflight]
    exact nodup_nil
  · rw [hflight]
    refine ⟨nofun, ?_⟩
    rintro ⟨p, b, j, k, hw, -⟩
    cases hw
  · rw [hused]
    exact nofun
  · rw [havail]
    rfl
  · rw [hused]
    rfl

theorem inv_run {blockno : Buf → Nat} {tr : List Event} {s : State}
    (hrun : Run step (fun _ _ => True) (init blockno) tr s) : Own s ∧ Flight s :=
  hrun.invariant (P := fun s => Own s ∧ Flight s) (inv_init blockno) fun _ _ _ h _ hs => step_inv h.1 h.2 hs

/-- **Requests are tracked.** In every state of every run: a descriptor is free, or in the chain of three of exactly
one process; a head that is in the avail ring, with the device or in the used ring is so once, and what the device
walks along from there is the chain of the process that waits for it; the slot of the avail ring that is written
next is none that the device has yet to read, and the device reads the heads that have been published, in order; the
handler processes the completions in order, each once, and clears the buffer whose request it was; nothing panics;
and without a request all descriptors are free. -/
theorem request_tracking {blockno : Buf → Nat} {tr : List Event} {s : State}
    (hrun : Run step (fun _ _ => True) (init blockno) tr s) :
    (∀ i, i < num → s.disk.free i = true ∧ (∀ p, i ∉ (s.pc p).descs) ∨
      s.disk.free i = false ∧ ∃! p, i ∈ (s.pc p).descs) ∧
    (∀ p, (s.pc p).descs ≠ [] → (s.pc p).descs.length = 3 ∧ (s.pc p).descs.Nodup ∧ ∀ i ∈ (s.pc p).descs, i < num) ∧
    s.flight.Nodup ∧
    (∀ h ∈ s.flight, ∃ p b j k, (s.pc p).waits = some (b, h, j, k) ∧ s.busy b = true ∧
      walk s.disk.desc num h = (s.pc p).descs) ∧
    (∀ p b i j k, s.pc p = .ring b i j k → ∀ n, n < Ring.count idxMod s.seen s.disk.availIdx →
      (s.seen + n) % num ≠ s.disk.availIdx % num) ∧
    s.published = s.taken ++ s.avail ∧
    s.completed.map (fun r => (r.head, r.buf)) = s.cleared ++ s.used.map (fun h => (h, (s.disk.info h).b)) ∧
    (∀ s', step s .intrNext = some s' → ∃ p b i j k, (s.pc p).waits = some (b, i, j, k) ∧ s.busy b = true ∧
      s'.cleared = s.cleared ++ [(i, some b)] ∧ s'.busy = update s.busy b false) ∧
    s.panicked = false ∧
    ((∀ p, (s.pc p).descs = []) → ∀ i, i < num → s.disk.free i = true) := by
  obtain ⟨ho, hf⟩ := inv_run hrun
  refine ⟨fun i hi => ?_, fun p hp => ⟨?_, ho.nodup p, fun i hi => (ho.lt p i hi).1⟩, hf.nodup, fun h hh => ?_,
    fun p b i j k hpc n hn => ?_, hf.published, hf.completed, fun s' hs => ?_, hf.running, fun hnone i hi => ?_⟩
  · cases hfree : s.disk.free i with
    | false =>
      obtain ⟨p, hp⟩ := ho.used i hi hfree
      exact .inr ⟨rfl, p, hp, fun q hq => ho.apart q p i hq hp⟩
    | true =>
      refine .inl ⟨rfl, fun p hp => ?_⟩
      rw [(ho.lt p i hp).2] at hfree
      cases hfree
  · cases hpc : s.pc p <;> simp_all [Pc.descs]
  · obtain ⟨p, b, j, k, hw, hb⟩ := (hf.mem h).mp hh
    have hchain := Pc.chain_of_waits hw
    exact ⟨p, b, j, k, hw, hb, by rw [(ho.formed p b h j k hchain).walk_eq, (Pc.descs_of_chain hchain).1]⟩
  · have hroom := hf.room ho (p := p) (b := b) (i := i) (j := j) (k := k) (by rw [hpc]; rfl) (by rw [hpc]; rfl)
    rw [← Ring.add_count_mod (N := num) hf.idx.1 hf.idx.2.1 (by decide)]
    simp only [num] at hroom ⊢
    omega
  · obtain ⟨⟨-, hne⟩, rfl⟩ := guarded hs
    obtain ⟨p, b, j, k, hw, hb, hinfo, hstatus⟩ := hf.next ho hne
    refine ⟨p, b, _, j, k, hw, hb, ?_, ?_⟩
    · simp only [stepIntr, hstatus, ne_eq, not_true_eq_false, if_false, hinfo]
    · simp only [stepIntr, hstatus, ne_eq, not_true_eq_false, if_false, hinfo]
  · by_contra hne
    obtain ⟨p, hp⟩ := ho.used i hi (by simpa using hne)
    rw [hnone p] at hp
    cases hp

/-- Two processes ask for a buffer each; the device takes both requests and completes the second one first. -/
def outOfOrder : List Event :=
  [.lockBuf 0 0, .lockBuf 1 1, .rw 0 0 false] ++ List.replicate 5 (.run 0) ++ [.rw 1 1 true] ++
    List.replicate 5 (.run 1) ++ [.take, .take, .complete 1, .intr]

/-- The handler clears the buffer of the second process, and the first one still waits. -/
theorem outOfOrder_tracking : ∃ s s',
    Run step (fun _ _ => True) (init id) outOfOrder s ∧ step s .intrNext = some s' ∧
      (s.pc 0).waits = some (0, 0, 1, 2) ∧ (s.pc 1).waits = some (1, 3, 4, 5) ∧ s'.cleared = [(3, some 1)] ∧
      s.flight.Nodup ∧ s.panicked = false ∧
      ∃ p b i j k, (s.pc p).waits = some (b, i, j, k) ∧ s'.busy = update s.busy b false := by
  have hend : (exec step (fun _ _ => True) (init id) outOfOrder).map (fun s => (s.pc 0, s.pc 1)) =
      some (.sleepBuf 0 0 1 2, .sleepBuf 1 3 4 5) := by
    decide +kernel
  have hnext : ((exec step (fun _ _ => True) (init id) outOfOrder).bind fun s => step s .intrNext).map
      State.cleared = some [(3, some 1)] := by
    decide +kernel
  obtain ⟨s, hs, hfacts⟩ := Option.map_eq_some_iff.mp hend
  simp only [Prod.mk.injEq] at hfacts
  obtain ⟨h0, h1⟩ := hfacts
  rw [hs] at hnext
  obtain ⟨s', hs', hcleared⟩ := Option.map_eq_some_iff.mp hnext
  have hrun := run_of_exec hs
  obtain ⟨-, -, hnodup, -, -, -, -, hclear, hpanic, -⟩ := request_tracking hrun
  obtain ⟨p, b, i, j, k, hw, -, -, hbusy⟩ := hclear s' hs'
  exact ⟨s, s', hrun, hs', by rw [h0]; rfl, by rw [h1]; rfl, hcleared, hnodup, hpanic, p, b, i, j, k, hw, hbusy⟩

end Xv6Armv8.Virtio


import Mathlib.Tactic

/-! Pre- and postconditions for programs with a state and an error. A program is a function of the
state that either stops with an error or returns a value and a new state; `Sat x s Q E` says that
the program `x`, started in `s`, returns a value and a state in `Q` or stops with an error in `E`.
The start state is an argument, so a postcondition may compare the two states, and the error
condition separates total correctness (`E` is false) from correctness up to a known error. -/

namespace Spec

variable {σ ε α β : Type}

/-- Started in `s`, the program ends in `Q`, or stops with an error in `E`. -/
def Sat (x : StateT σ (Except ε) α) (s : σ) (Q : α → σ → Prop) (E : ε → Prop) : Prop :=
  match x s with
  | .ok (a, t) => Q a t
  | .error e => E e

variable {x : StateT σ (Except ε) α} {f : α → StateT σ (Except ε) β} {s : σ}
  {Q Q' : α → σ → Prop} {R : β → σ → Prop} {E E' : ε → Prop}

/-! ### Rules -/

@[simp] theorem sat_pure {a : α} : Sat (pure a) s Q E ↔ Q a s := Iff.rfl

@[simp] theorem sat_throw {e : ε} : Sat (throw e : StateT σ (Except ε) α) s Q E ↔ E e := Iff.rfl

@[simp] theorem sat_get {Q : σ → σ → Prop} : Sat (get : StateT σ (Except ε) σ) s Q E ↔ Q s s := Iff.rfl

@[simp] theorem sat_set {t : σ} {Q : PUnit → σ → Prop} :
    Sat (set t : StateT σ (Except ε) PUnit) s Q E ↔ Q ⟨⟩ t := Iff.rfl

@[simp] theorem sat_modify {g : σ → σ} {Q : PUnit → σ → Prop} :
    Sat (modify g : StateT σ (Except ε) PUnit) s Q E ↔ Q ⟨⟩ (g s) := Iff.rfl

@[simp] theorem sat_bind : Sat (x >>= f) s R E ↔ Sat x s (fun a t => Sat (f a) t R E) E := by
  unfold Sat
  show (match (x s).bind fun p => f p.1 p.2 with | .ok (a, t) => R a t | .error e => E e) ↔ _
  cases x s with
  | ok p => exact Iff.rfl
  | error e => exact Iff.rfl

@[simp] theorem sat_map {g : α → β} : Sat (g <$> x) s R E ↔ Sat x s (fun a t => R (g a) t) E := by
  rw [map_eq_pure_bind, sat_bind]
  exact Iff.rfl

theorem sat_ite {c : Prop} [Decidable c] {y : StateT σ (Except ε) α} :
    Sat (if c then x else y) s Q E ↔ (c → Sat x s Q E) ∧ (¬c → Sat y s Q E) := by
  by_cases hc : c
  · simp [hc]
  · simp [hc]

/-- The rule of consequence. -/
theorem Sat.mono (h : Sat x s Q E) (hQ : ∀ a t, Q a t → Q' a t) (hE : ∀ e, E e → E' e) : Sat x s Q' E' := by
  unfold Sat at h ⊢
  cases hx : x s with
  | ok p =>
    rw [hx] at h
    exact hQ _ _ h
  | error e =>
    rw [hx] at h
    exact hE _ h

theorem Sat.imp (h : Sat x s Q E) (hQ : ∀ a t, Q a t → Q' a t) : Sat x s Q' E :=
  h.mono hQ fun _ he => he

theorem Sat.err (h : Sat x s Q E) (hE : ∀ {e}, E e → E' e) : Sat x s Q E' := h.mono (fun _ _ h => h) fun _ => hE

/-- The rule of composition: a step that ends in `Q` is followed by one that starts there. -/
theorem Sat.bind (h : Sat x s Q E) (hf : ∀ a t, Q a t → Sat (f a) t R E) : Sat (x >>= f) s R E :=
  sat_bind.mpr (h.imp hf)

/-- The rule for a loop over a list: an invariant of the number of elements done. -/
theorem sat_forM {γ : Type} {xs : List γ} {g : γ → StateT σ (Except ε) PUnit} {I : Nat → σ → Prop}
    (h0 : I 0 s)
    (hstep : ∀ i (h : i < xs.length) t, I i t → Sat (g xs[i]) t (fun _ t' => I (i + 1) t') E) :
    Sat (xs.forM g) s (fun _ t => I xs.length t) E := by
  induction xs generalizing s I with
  | nil => exact h0
  | cons x xs ih =>
    rw [List.forM_eq_forM, List.forM_cons]
    refine (hstep 0 (by simp) s h0).bind fun _ t ht => ?_
    exact ih (I := fun i => I (i + 1)) ht fun i hi t' ht' =>
      hstep (i + 1) (by simpa using hi) t' ht'

/-- The rule for a counting loop. -/
theorem sat_forM_range {n : Nat} {g : Nat → StateT σ (Except ε) PUnit} {I : Nat → σ → Prop} (h0 : I 0 s)
    (hstep : ∀ i, i < n → ∀ t, I i t → Sat (g i) t (fun _ t' => I (i + 1) t') E) :
    Sat ((List.range n).forM g) s (fun _ t => I n t) E := by
  have h : Sat ((List.range n).forM g) s (fun _ t => I (List.range n).length t) E := by
    refine sat_forM h0 fun i hi t ht => ?_
    rw [List.getElem_range]
    exact hstep i (by simpa using hi) t ht
  rwa [List.length_range] at h

/-- A program without errors returns. -/
theorem Sat.ok (h : Sat x s Q fun _ => False) : ∃ a t, x s = .ok (a, t) ∧ Q a t := by
  unfold Sat at h
  cases hx : x s with
  | ok p =>
    rw [hx] at h
    exact ⟨p.1, p.2, rfl, h⟩
  | error e =>
    rw [hx] at h
    exact h.elim

theorem Sat.of_ok {a : α} {t : σ} (h : Sat x s Q E) (hx : x s = .ok (a, t)) : Q a t := by
  unfold Sat at h
  rwa [hx] at h

theorem Sat.of_error {e : ε} (h : Sat x s Q E) (hx : x s = .error e) : E e := by
  unfold Sat at h
  rwa [hx] at h

theorem sat_of_eq {a : α} {t : σ} (hx : x s = .ok (a, t)) : Sat x s Q E ↔ Q a t := by
  unfold Sat
  rw [hx]

/-- The outcome is that of the run. -/
theorem Sat.eqn (h : Sat x s Q E) : Sat x s (fun a t => x s = .ok (a, t) ∧ Q a t) E := by
  unfold Sat at h ⊢
  cases hx : x s with
  | ok p =>
    rw [hx] at h
    exact ⟨rfl, h⟩
  | error e =>
    rw [hx] at h
    exact h

/-- Two facts about one run. -/
theorem Sat.and (h : Sat x s Q E) (h' : Sat x s Q' E') :
    Sat x s (fun a t => Q a t ∧ Q' a t) fun e => E e ∧ E' e := by
  unfold Sat at h h' ⊢
  cases hx : x s with
  | ok p =>
    rw [hx] at h h'
    exact ⟨h, h'⟩
  | error e =>
    rw [hx] at h h'
    exact ⟨h, h'⟩

/-- A fact that depends on an assumption the program does not know of. -/
theorem Sat.given {P : Prop} (h : Sat x s Q E) (h' : P → Sat x s Q' E') :
    Sat x s (fun a t => Q a t ∧ (P → Q' a t)) fun e => E e ∧ (P → E' e) := by
  unfold Sat at h h' ⊢
  cases hx : x s with
  | ok p =>
    rw [hx] at h h'
    exact ⟨h, h'⟩
  | error e =>
    rw [hx] at h h'
    exact ⟨h, h'⟩

theorem Sat.when {P : Prop} (h : Sat x s Q E) (h' : P → Sat x s Q' E') :
    Sat x s (fun a t => Q a t ∧ (P → Q' a t)) E :=
  (h.given h').mono (fun _ _ ht => ht) fun _ he => he.1

/-! ### Programs that keep a relation -/

/-- Whatever state the program starts in, the one it ends in is related to it. -/
def Keeps (R : σ → σ → Prop) (E : ε → Prop) (x : StateT σ (Except ε) α) : Prop :=
  ∀ s, Sat x s (fun _ t => R s t) E

variable {r : σ → σ → Prop}

theorem Keeps.pure [Std.Refl r] {a : α} : Keeps r E (pure a : StateT σ (Except ε) α) := fun s => refl_of r s

theorem Keeps.throw {e : ε} (he : E e) : Keeps r E (throw e : StateT σ (Except ε) α) := fun _ => he

theorem Keeps.get [Std.Refl r] : Keeps r E (get : StateT σ (Except ε) σ) := fun s => refl_of r s

theorem Keeps.modify {g : σ → σ} (h : ∀ s, r s (g s)) : Keeps r E (modify g : StateT σ (Except ε) PUnit) := h

theorem Keeps.bind [IsTrans σ r] (hx : Keeps r E x) (hf : ∀ a, Keeps r E (f a)) : Keeps r E (x >>= f) :=
  fun s => (hx s).bind fun a t ht => (hf a t).imp fun _ _ hu => trans_of r ht hu

theorem Keeps.ite {c : Prop} [Decidable c] {y : StateT σ (Except ε) α} (hx : Keeps r E x) (hy : Keeps r E y) :
    Keeps r E (if c then x else y) := by
  split
  · exact hx
  · exact hy

theorem Keeps.forM [Std.Refl r] [IsTrans σ r] {γ : Type} {xs : List γ} {g : γ → StateT σ (Except ε) PUnit}
    (hg : ∀ c, Keeps r E (g c)) : Keeps r E (xs.forM g) := fun s =>
  sat_forM (I := fun _ t => r s t) (refl_of r s) fun _ _ t ht => (hg _ t).imp fun _ _ hu => trans_of r ht hu

end Spec

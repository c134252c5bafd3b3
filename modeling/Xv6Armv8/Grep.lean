import Mathlib.Computability.Language
import Mathlib.Tactic

/-! `grep` (`grep.c`): the matcher for regular expressions with `^`, `.`, `*` and `$`, and the filter of lines over a
buffer of 1024 bytes. A C string is the list of the characters before its NUL. -/

namespace Xv6Armv8.Grep

open Computability List

/-! ### The matcher -/

/-- `matchstar`; `here` is `matchhere` on the expression after the star. -/
def matchstar (c : Char) (here : List Char → Bool) : List Char → Bool
  | [] => here []
  | t :: text => here (t :: text) || ((t = c || c = '.') && matchstar c here text)

/-- One character of the text that `c` stands for, and `here` on what follows. -/
def matchone (c : Char) (here : List Char → Bool) : List Char → Bool
  | [] => false
  | t :: text => (c = '.' || c = t) && here text

/-- `matchhere`; the expression is read by its first two characters. -/
def matchhere : List Char → List Char → Bool
  | [], _ => true
  | [c], text => if c = '$' then text.isEmpty else matchone c (fun _ => true) text
  | c :: c' :: re, text => if c' = '*' then matchstar c (matchhere re) text else matchone c (matchhere (c' :: re)) text

/-- The loop of `match` over the ends of the text, the empty one included. -/
def matchFrom (re : List Char) : List Char → Bool
  | [] => matchhere re []
  | t :: text => matchhere re (t :: text) || matchFrom re text

/-- `match`. -/
def matchText (re text : List Char) : Bool :=
  if re.head? = some '^' then matchhere re.tail text else matchFrom re text

/-! ### The language of an expression -/

/-- What a character stands for: itself, or any character. -/
def one (c : Char) : Language Char := {s | ∃ x, s = [x] ∧ (c = '.' ∨ c = x)}

/-- The strings an expression denotes, read from left to right. -/
def lang : List Char → Language Char
  | [] => 1
  | [c] => if c = '$' then 1 else one c
  | c :: c' :: re => if c' = '*' then (one c)∗ * lang re else one c * lang (c' :: re)

/-- The expression ends with a `$` for the end of the text. -/
def atEnd : List Char → Bool
  | [] => false
  | [c] => c = '$'
  | _ :: c' :: re => if c' = '*' then atEnd re else atEnd (c' :: re)

variable {re text s : List Char} {c : Char}

theorem mem_star : s ∈ (one c)∗ ↔ ∀ x ∈ s, c = '.' ∨ c = x := by
  rw [Language.mem_kstar]
  constructor
  · rintro ⟨L, rfl, hL⟩ x hx
    obtain ⟨y, hy, hxy⟩ := mem_flatten.mp hx
    obtain ⟨z, rfl, hz⟩ := hL y hy
    rwa [mem_singleton.mp hxy]
  · intro h
    refine ⟨s.map fun x => [x], (flatMap_singleton' s).symm, fun y hy => ?_⟩
    obtain ⟨x, hx, rfl⟩ := mem_map.mp hy
    exact ⟨x, rfl, h x hx⟩

theorem stands_iff {t : Char} : (decide (t = c) || decide (c = '.')) = true ↔ c = '.' ∨ c = t := by
  rw [Bool.or_eq_true, decide_eq_true_eq, decide_eq_true_eq, or_comm, eq_comm (a := t)]

theorem matchstar_iff {here : List Char → Bool} :
    matchstar c here text ↔ ∃ u v, text = u ++ v ∧ u ∈ (one c)∗ ∧ here v := by
  induction text with
  | nil =>
    refine ⟨fun h => ⟨[], [], rfl, mem_star.mpr nofun, h⟩, ?_⟩
    rintro ⟨u, v, huv, -, hv⟩
    obtain ⟨rfl, rfl⟩ := append_eq_nil_iff.mp huv.symm
    exact hv
  | cons t text ih =>
    rw [matchstar, Bool.or_eq_true, Bool.and_eq_true, stands_iff, ih]
    constructor
    · rintro (h | ⟨ht, u, v, rfl, hu, hv⟩)
      · exact ⟨[], t :: text, rfl, mem_star.mpr nofun, h⟩
      · refine ⟨t :: u, v, rfl, mem_star.mpr fun x hx => ?_, hv⟩
        rcases mem_cons.mp hx with rfl | hx
        · exact ht
        · exact mem_star.mp hu x hx
    · rintro ⟨u, v, huv, hu, hv⟩
      cases u with
      | nil =>
        rw [huv]
        exact .inl hv
      | cons x u =>
        obtain ⟨rfl, rfl⟩ := List.cons.inj huv
        have hu := mem_star.mp hu
        exact .inr ⟨hu t mem_cons_self, u, v, rfl, mem_star.mpr fun y hy => hu y (mem_cons_of_mem _ hy), hv⟩

theorem matchone_iff {here : List Char → Bool} :
    matchone c here text ↔ ∃ t rest, text = t :: rest ∧ (c = '.' ∨ c = t) ∧ here rest := by
  cases text with
  | nil => simp [matchone]
  | cons t text =>
    rw [matchone, Bool.and_eq_true, Bool.or_eq_true, decide_eq_true_eq, decide_eq_true_eq]
    refine ⟨fun h => ⟨t, text, rfl, h⟩, ?_⟩
    rintro ⟨_, _, heq, h⟩
    obtain ⟨rfl, rfl⟩ := List.cons.inj heq
    exact h

theorem one_mul_iff {L : Language Char} {P : List Char → Prop} :
    (∃ t rest, text = t :: rest ∧ (c = '.' ∨ c = t) ∧ ∃ s post, rest = s ++ post ∧ s ∈ L ∧ P post) ↔
      ∃ s post, text = s ++ post ∧ s ∈ one c * L ∧ P post := by
  constructor
  · rintro ⟨t, _, rfl, ht, s, post, rfl, hs, hP⟩
    exact ⟨t :: s, post, rfl, Language.mem_mul.mpr ⟨[t], ⟨t, rfl, ht⟩, s, hs, rfl⟩, hP⟩
  · rintro ⟨s, post, rfl, hs, hP⟩
    obtain ⟨u, ⟨x, rfl, hx⟩, s', hs', rfl⟩ := Language.mem_mul.mp hs
    exact ⟨x, s' ++ post, rfl, hx, s', post, rfl, hs', hP⟩

theorem matchhere_iff (re : List Char) : ∀ text : List Char, matchhere re text ↔
    ∃ s post, text = s ++ post ∧ s ∈ lang re ∧ (atEnd re → post = []) := by
  induction re using lang.induct with
  | case1 => exact fun text => iff_of_true rfl ⟨[], text, rfl, rfl, nofun⟩
  | case2 =>
    intro text
    rw [matchhere, if_pos rfl, List.isEmpty_iff]
    refine ⟨fun h => ⟨[], [], h, rfl, fun _ => rfl⟩, ?_⟩
    rintro ⟨s, post, rfl, rfl, hpost⟩
    exact hpost rfl
  | case3 c hc =>
    intro text
    rw [matchhere, if_neg hc, matchone_iff, lang, if_neg hc, ← mul_one (one c), ← one_mul_iff]
    simp only [atEnd, hc, decide_false, Bool.false_eq_true, false_implies, and_true]
    refine exists_congr fun t => exists_congr fun rest => and_congr_right fun _ => ?_
    exact (and_iff_left ⟨[], rest, rfl, rfl⟩).symm
  | case4 c re ih =>
    intro text
    rw [matchhere, if_pos rfl, matchstar_iff, lang, if_pos rfl, atEnd, if_pos rfl]
    constructor
    · rintro ⟨u, v, rfl, hu, hv⟩
      obtain ⟨s, post, rfl, hs, hpost⟩ := (ih v).mp hv
      exact ⟨u ++ s, post, (append_assoc ..).symm, Language.mem_mul.mpr ⟨u, hu, s, hs, rfl⟩, hpost⟩
    · rintro ⟨w, post, rfl, hw, hpost⟩
      obtain ⟨u, hu, s, hs, rfl⟩ := Language.mem_mul.mp hw
      exact ⟨u, s ++ post, append_assoc .., hu, (ih _).mpr ⟨s, post, rfl, hs, hpost⟩⟩
  | case5 c c' re hc ih =>
    intro text
    rw [matchhere, if_neg hc, matchone_iff, lang, if_neg hc, atEnd, if_neg hc, ← one_mul_iff]
    simp only [ih]

theorem matchFrom_iff : matchFrom re text ↔ ∃ pre rest, text = pre ++ rest ∧ matchhere re rest := by
  induction text with
  | nil =>
    refine ⟨fun h => ⟨[], [], rfl, h⟩, ?_⟩
    rintro ⟨pre, rest, heq, h⟩
    rwa [matchFrom, ← (append_eq_nil_iff.mp heq.symm).2]
  | cons t text ih =>
    rw [matchFrom, Bool.or_eq_true, ih]
    constructor
    · rintro (h | ⟨pre, rest, rfl, h⟩)
      · exact ⟨[], t :: text, rfl, h⟩
      · exact ⟨t :: pre, rest, rfl, h⟩
    · rintro ⟨pre, rest, heq, h⟩
      cases pre with
      | nil => exact .inl (heq ▸ h)
      | cons x pre => exact .inr ⟨pre, rest, (List.cons.inj heq).2, h⟩

/-- **The matcher implements its expressions**: it finds a part of the text that is in the language of the expression, at
the start of the text after a `^` and at its end before a final `$`. -/
theorem match_iff (re text : List Char) : matchText re text ↔ ∃ pre s post, text = pre ++ s ++ post ∧
    s ∈ lang (if re.head? = some '^' then re.tail else re) ∧ (re.head? = some '^' → pre = []) ∧
    (atEnd (if re.head? = some '^' then re.tail else re) → post = []) := by
  unfold matchText
  split_ifs with hcaret
  · rw [matchhere_iff]
    constructor
    · rintro ⟨s, post, rfl, hs, hpost⟩
      exact ⟨[], s, post, rfl, hs, fun _ => rfl, hpost⟩
    · rintro ⟨pre, s, post, rfl, hs, hpre, hpost⟩
      rw [hpre hcaret]
      exact ⟨s, post, rfl, hs, hpost⟩
  · rw [matchFrom_iff]
    constructor
    · rintro ⟨pre, rest, rfl, h⟩
      obtain ⟨s, post, rfl, hs, hpost⟩ := (matchhere_iff re rest).mp h
      exact ⟨pre, s, post, (append_assoc ..).symm, hs, fun h => absurd h hcaret, hpost⟩
    · rintro ⟨pre, s, post, rfl, hs, -, hpost⟩
      exact ⟨pre, s ++ post, append_assoc .., (matchhere_iff re _).mpr ⟨s, post, rfl, hs, hpost⟩⟩

/-! ### The filter -/

/-- The loop over the newlines in the buffer, with the line begun: what is written, and the line that is not ended. -/
def scan (pattern : List Char) : List Char → List Char → List Char × List Char
  | line, [] => ([], line)
  | line, c :: buf =>
    if c = '\n' then
      let (out, left) := scan pattern [] buf
      (if matchText pattern line then line ++ '\n' :: out else out, left)
    else scan pattern (line ++ [c]) buf

/-- The loop over the reads, with the `m` bytes kept at the start of `buf` and the rest of the input. A read gets at most
the room left and at least one byte, if there is one and room for it; how many is the choice of `sizes`. -/
def grepLoop (pattern : List Char) (sizes : Nat → Nat) : Nat → List Char → List Char → List Char
  | 0, _, _ => []
  | turns + 1, kept, input =>
    let n := min (max 1 (sizes turns)) (min (1024 - kept.length - 1) input.length)
    if n = 0 then []
    else
      let (out, left) := scan pattern kept (input.take n)
      out ++ grepLoop pattern sizes turns left (input.drop n)

/-- `grep`, on an input without NUL; every turn reads a byte. -/
def grep (pattern : List Char) (sizes : Nat → Nat) (input : List Char) : List Char :=
  grepLoop pattern sizes (input.length + 1) [] input

/-- Lines as they stand in a file. -/
def join (lines : List (List Char)) : List Char := lines.flatMap (· ++ ['\n'])

/-- A line that fits in the buffer with its newline. -/
def short (l : List Char) : Bool := l.length < 1023

variable {pattern line : List Char} {lines : List (List Char)}

@[simp] theorem join_cons {l : List Char} {ls : List (List Char)} : join (l :: ls) = l ++ '\n' :: join ls := by
  simp [join]

theorem join_split {l z : List Char} {ls : List (List Char)} (hline : '\n' ∉ line) (h : line ++ z = join (l :: ls)) :
    ∃ r, l = line ++ r ∧ z = r ++ '\n' :: join ls := by
  rw [join_cons] at h
  rcases append_eq_append_iff.mp h with ⟨r, hl, hz⟩ | ⟨r, hl, hz⟩
  · exact ⟨r, hl, hz⟩
  · cases r with
    | nil => exact ⟨[], by simpa using hl.symm, by simpa using hz.symm⟩
    | cons x r =>
      obtain ⟨rfl, -⟩ := List.cons.inj hz
      simp [hl] at hline

/-- A piece of the input, after a begun line: the lines that end in it are scanned, and the last is left. -/
theorem scan_spec (pattern : List Char) (B : Nat) : ∀ {buf line : List Char} {lines y}, (∀ l ∈ lines, '\n' ∉ l) → '\n' ∉ line →
    line ++ (buf ++ y) = join lines → line.length + buf.length ≤ B → ∃ done rest left, lines = done ++ rest ∧
      scan pattern line buf = (join (done.filter (matchText pattern)), left) ∧ '\n' ∉ left ∧ left ++ y = join rest ∧
      (∀ l ∈ done, l.length < B) ∧ left.length ≤ B := by
  intro buf
  induction buf with
  | nil => exact fun {line lines y} _ hline h hB => ⟨[], lines, line, rfl, rfl, hline, h, nofun, hB⟩
  | cons c buf ih =>
    intro line lines y hlines hline h hB
    rw [length_cons] at hB
    by_cases hc : c = '\n'
    · subst hc
      cases lines with
      | nil => simp [join] at h
      | cons l ls =>
        obtain ⟨r, rfl, hz⟩ := join_split hline h
        have hr : r = [] := by
          cases r with
          | nil => rfl
          | cons x r =>
            obtain ⟨rfl, -⟩ := List.cons.inj hz
            exact absurd (by simp) (hlines _ mem_cons_self)
        subst hr
        rw [append_nil] at hlines ⊢
        obtain ⟨done, rest, left, rfl, hscan, hleft, hjoin, hdone, hlen⟩ := ih
          (fun l hl => hlines l (mem_cons_of_mem _ hl)) not_mem_nil (List.cons.inj hz).2 (by simp; omega)
        refine ⟨line :: done, rest, left, rfl, ?_, hleft, hjoin, fun l hl => ?_, hlen⟩
        · rw [scan, if_pos rfl, hscan, filter_cons]
          split_ifs
          · rw [join_cons]
          · rfl
        · rcases mem_cons.mp hl with rfl | hl
          · omega
          · exact hdone l hl
    · rw [scan, if_neg hc]
      exact ih hlines (by simp [hline, Ne.symm hc]) (by simpa using h) (by simp; omega)

/-- The loop puts out the matching lines up to the first that does not fit in the buffer. -/
theorem grepLoop_eq {sizes : Nat → Nat} (turns : Nat) : ∀ {kept input : List Char} {lines : List (List Char)},
    (∀ l ∈ lines, '\n' ∉ l) → '\n' ∉ kept → kept.length ≤ 1023 → kept ++ input = join lines → input.length < turns →
    grepLoop pattern sizes turns kept input = join ((lines.takeWhile short).filter (matchText pattern)) := by
  induction turns with
  | zero => exact fun _ _ _ _ h => absurd h (Nat.not_lt_zero _)
  | succ turns ih =>
    intro kept input lines hlines hkept hlen hjoin hturns
    rw [grepLoop]
    generalize hn : min (max 1 (sizes turns)) (min (1024 - kept.length - 1) input.length) = n
    dsimp only
    split_ifs with h0
    · -- Nothing is read: the input is at its end, or the buffer is full with the start of one line.
      cases lines with
      | nil => rfl
      | cons l ls =>
        obtain ⟨r, rfl, rfl⟩ := join_split hkept hjoin
        have hlong : short (kept ++ r) = false := by
          simp only [short, length_append, length_cons, decide_eq_false_iff_not] at hn ⊢
          omega
        rw [takeWhile_cons, hlong]
        rfl
    · obtain ⟨done, rest, left, rfl, hscan, hleft, hrest, hdone, hlen'⟩ := scan_spec pattern 1023
        hlines hkept (by rwa [take_append_drop n input]) (by rw [length_take]; omega)
      have hshort : ∀ l ∈ done, short l = true := fun l hl => decide_eq_true (hdone l hl)
      rw [hscan, ih (fun l hl => hlines l (mem_append_right _ hl)) hleft hlen' hrest (by rw [length_drop]; omega),
        takeWhile_append_of_pos hshort, filter_append, join, join, join,
        flatMap_append]

/-- **`grep` writes the matching lines just when no line matches from the first one of 1023 characters or more on**,
however the input is split into reads: such a line fills the buffer, and the read of no byte ends the loop. -/
theorem grep_filters_iff (pattern : List Char) (sizes : Nat → Nat) (lines : List (List Char))
    (hlines : ∀ l ∈ lines, '\n' ∉ l) : grep pattern sizes (join lines) = join (lines.filter (matchText pattern)) ↔
      ∀ l ∈ lines.dropWhile short, matchText pattern l = false := by
  have hgrep : grep pattern sizes (join lines) = _ :=
    grepLoop_eq _ hlines not_mem_nil (Nat.zero_le _) (nil_append _) (Nat.lt_succ_self _)
  have hsplit : join (lines.filter (matchText pattern)) = join ((lines.takeWhile short).filter (matchText pattern)) ++
      join ((lines.dropWhile short).filter (matchText pattern)) := by
    rw [join, join, join, ← flatMap_append, ← filter_append, takeWhile_append_dropWhile]
  rw [hgrep, hsplit, self_eq_append_right, join, flatMap_eq_nil_iff]
  simp

/-- Two lines through a read of one byte at a time. -/
theorem grep_two_lines : grep ['b'] (fun _ => 1) (join [['a'], ['b']]) = join [['b']] :=
  (grep_filters_iff ['b'] (fun _ => 1) [['a'], ['b']] (by decide)).mpr (by decide)

/-- A line of 1023 characters is not written, though the empty expression matches it. -/
theorem grep_long_line_lost : ∃ l : List Char, l.length = 1023 ∧ '\n' ∉ l ∧ matchText [] l = true ∧
    grep [] (fun _ => 1023) (join [l]) = [] := by
  obtain ⟨l, hlen, hl⟩ : ∃ l : List Char, l.length = 1023 ∧ '\n' ∉ l :=
    ⟨List.replicate 1023 'a', length_replicate, fun h => by cases eq_of_mem_replicate h⟩
  have hlong : short l = false := decide_eq_false (by omega)
  refine ⟨l, hlen, hl, by cases l <;> rfl, ?_⟩
  refine (grepLoop_eq _ (by simpa using hl) not_mem_nil (Nat.zero_le _) (nil_append _)
    (Nat.lt_succ_self _)).trans ?_
  rw [takeWhile_cons, hlong]
  rfl

end Xv6Armv8.Grep

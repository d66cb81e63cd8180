import Hexv6.Grep.Match

/-!
# The lines that `grep` writes

The loop of `grep` in `user/grep.c`.  The buffer is given by its characters before the NUL that
ends them, and the input by its characters, none of which is NUL.
-/

namespace Hexv6.Grep

/-- `sizeof(buf)`. -/
def BUFSIZE : ℕ := 1024

variable (re : List Char)

/-- What is written for a line. -/
def put (line : List Char) : List Char := if match_ re line then line ++ ['\n'] else []

/-- The loop over the lines of the buffer: what is written, and what stays in the buffer.  `line`
are the characters from `p` on that `strchr` has passed. -/
def scan (line : List Char) : List Char → List Char × List Char
  | [] => ([], line)
  | c :: buf =>
    if c = '\n' then (put re line ++ (scan [] buf).1, (scan [] buf).2) else scan (line ++ [c]) buf

/-- The loop of `grep`, where `held` are the `m` characters in the buffer.  A read that could return
`k` characters returns any number of them, but not none if `k > 0`. -/
def grepLoop (size : ℕ → ℕ) : ℕ → List Char → List Char → List Char
  | 0, _, _ => []
  | turns + 1, held, input =>
    match min (size turns + 1) (min (BUFSIZE - held.length - 1) input.length) with
    | 0 => []
    | n + 1 =>
      let r := scan re [] (held ++ input.take (n + 1))
      r.1 ++ grepLoop size turns r.2 (input.drop (n + 1))

def grep (size : ℕ → ℕ) (input : List Char) : List Char :=
  grepLoop re size (input.length + 1) [] input

/-- Lines with their newlines. -/
def unlines (ls : List (List Char)) : List Char := ls.flatMap (· ++ ['\n'])

/-- `grep` writes the lines that match, whole and in order. -/
def Exact (size : ℕ → ℕ) (ls : List (List Char)) : Prop :=
  grep re size (unlines ls) = unlines (ls.filter (match_ re))

/-- The line fits in the buffer, with its newline and the NUL. -/
def fits (l : List Char) : Bool := l.length + 1 < BUFSIZE

/-- What is written if the input is read by characters, until a line does not fit. -/
def written (line : List Char) : List Char → List Char
  | [] => []
  | c :: input =>
    if fits line = false then []
    else if c = '\n' then put re line ++ written [] input else written (line ++ [c]) input

variable {re} {size : ℕ → ℕ} {line held buf input l : List Char} {ls : List (List Char)}

lemma scan_append (h : '\n' ∉ held) : scan re line (held ++ buf) = scan re (line ++ held) buf := by
  induction held generalizing line with
  | nil => simp
  | cons c held ih =>
    rw [List.mem_cons, not_or] at h
    rw [List.cons_append, scan, if_neg (Ne.symm h.1), ih h.2, List.append_assoc,
      List.singleton_append]

lemma scan_rest (h : '\n' ∉ line) :
    '\n' ∉ (scan re line buf).2 ∧ (scan re line buf).2.length ≤ line.length + buf.length := by
  induction buf generalizing line with
  | nil => exact ⟨h, le_rfl⟩
  | cons c buf ih =>
    rw [scan, List.length_cons]
    by_cases hc : c = '\n'
    · have hih := @ih [] (by simp)
      rw [if_pos hc]
      exact ⟨hih.1, hih.2.trans (by simp; omega)⟩
    · have hih := @ih (line ++ [c]) (by simp [h, Ne.symm hc])
      rw [if_neg hc]
      exact ⟨hih.1, hih.2.trans (by simp; omega)⟩

/-- One turn of the loop of `grep`. -/
lemma written_append (h : line.length + buf.length < BUFSIZE) : written re line (buf ++ input) =
    (scan re line buf).1 ++ written re (scan re line buf).2 input := by
  induction buf generalizing line with
  | nil => rfl
  | cons c buf ih =>
    rw [List.length_cons] at h
    rw [List.cons_append, written, if_neg (by simp [fits]; omega), scan]
    by_cases hc : c = '\n'
    · rw [if_pos hc, if_pos hc, ih (by simp; omega), List.append_assoc]
    · rw [if_neg hc, if_neg hc, ih (by simp; omega)]

lemma grepLoop_eq {turns : ℕ} (h : input.length < turns) (hheld : '\n' ∉ held)
    (hlen : held.length < BUFSIZE) : grepLoop re size turns held input = written re held input := by
  induction turns generalizing held input with
  | zero => omega
  | succ turns ih =>
    rw [grepLoop]
    split
    · -- there is no input left, or no room for it
      rcases input with _ | ⟨c, input⟩
      · rfl
      · rename_i hn
        rw [written, if_pos]
        simp only [fits, decide_eq_false_iff_not, List.length_cons] at hn ⊢
        omega
    · rename_i n hn
      have hlength : (input.take (n + 1)).length = n + 1 := by rw [List.length_take]; omega
      have hrest : '\n' ∉ (scan re held (input.take (n + 1))).2 ∧
          (scan re held (input.take (n + 1))).2.length ≤ _ := scan_rest hheld
      simp only [scan_append hheld, List.nil_append]
      rw [ih (by rw [List.length_drop]; omega) hrest.1 (by omega), ← written_append (by omega),
        List.take_append_drop]

lemma written_line (h : '\n' ∉ l) : written re line (l ++ '\n' :: input) =
    if fits (line ++ l) then put re (line ++ l) ++ written re [] input else [] := by
  induction l generalizing line with
  | nil =>
    rw [List.nil_append, written, if_pos rfl, List.append_nil]
    cases fits line <;> rfl
  | cons c l ih =>
    rw [List.mem_cons, not_or] at h
    rw [List.cons_append, written, if_neg (Ne.symm h.1), ih h.2, List.append_assoc,
      List.singleton_append]
    -- a line that does not fit is not read to its end
    rw [ite_eq_right_iff]
    intro hline
    rw [if_neg]
    simp only [fits, decide_eq_false_iff_not, decide_eq_true_eq, List.length_append] at hline ⊢
    omega

lemma grep_eq (h : ∀ l ∈ ls, '\n' ∉ l) :
    grep re size (unlines ls) = unlines ((ls.takeWhile fits).filter (match_ re)) := by
  rw [grep, grepLoop_eq (Nat.lt_succ_self _) (by simp) (by decide)]
  induction ls with
  | nil => rfl
  | cons l ls ih =>
    rw [List.forall_mem_cons] at h
    rw [unlines, List.flatMap_cons, List.append_assoc, List.singleton_append, written_line h.1,
      List.nil_append, List.takeWhile_cons]
    by_cases hl : fits l
    · rw [if_pos hl, if_pos hl, ← unlines, ih h.2, List.filter_cons, put]
      split_ifs
      · rfl
      · rfl
    · rw [if_neg hl, if_neg hl]
      rfl

/-- Exact are the inputs in which no line matches from the first one on that does not fit. -/
theorem exact_iff (h : ∀ l ∈ ls, '\n' ∉ l) :
    Exact re size ls ↔ ∀ l ∈ ls.dropWhile fits, match_ re l = false := by
  have hsplit : ls.filter (match_ re) =
      (ls.takeWhile fits).filter (match_ re) ++ (ls.dropWhile fits).filter (match_ re) := by
    rw [← List.filter_append, List.takeWhile_append_dropWhile]
  rw [Exact, grep_eq h, hsplit, unlines, unlines, List.flatMap_append, List.self_eq_append_right]
  simp [List.flatMap_eq_nil_iff]

theorem exact_iff_short : Exact ['a'] (fun _ => 0) [['a']] :=
  (exact_iff (by simp)).2 (by simp [fits, BUFSIZE])

/-- A line of 1023 characters is lost. -/
theorem not_exact_long : ¬ ∀ re size ls, (∀ l ∈ ls, '\n' ∉ l) → Exact re size ls := by
  intro h
  obtain ⟨l, hl, hline⟩ : ∃ l, fits l = false ∧ '\n' ∉ l :=
    ⟨List.replicate 1023 'a', by rw [fits, List.length_replicate]; rfl,
      by rw [List.mem_replicate]; decide⟩
  have hmatch : match_ [] l = true := by cases l <;> simp [match_, search, matchhere]
  have hexact := h [] (fun _ => 0) [l] (by simpa)
  rw [Exact, grep_eq (by simpa)] at hexact
  simp [hl, hmatch, unlines] at hexact

end Hexv6.Grep

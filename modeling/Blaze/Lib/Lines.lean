import Mathlib.Data.List.Basic

/-!
# Lines

A sequence is cut after each separator into complete lines, and what follows the last
separator is its tail.  Appending to the sequence leaves the complete lines alone and
continues the tail.
-/

namespace Lines

universe u

variable {α : Type u} [DecidableEq α] (separator : α)

/-- Read up to and with the first separator, or to the end. -/
def readUntil : List α → List α
  | [] => []
  | a :: rest => if a = separator then [a] else a :: readUntil rest

/-- Cut after each separator: the complete lines, and the tail. -/
def cut : List α → List (List α) × List α
  | [] => ([], [])
  | a :: rest =>
      if a = separator then
        ([a] :: (cut rest).1, (cut rest).2)
      else
        match (cut rest).1 with
        | [] => ([], a :: (cut rest).2)
        | line :: lines => ((a :: line) :: lines, (cut rest).2)

def lines (xs : List α) : List (List α) :=
  (cut separator xs).1

def tail (xs : List α) : List α :=
  (cut separator xs).2

/-- A complete line ends with its only separator. -/
def IsLine (line : List α) : Prop :=
  ∃ body, line = body ++ [separator] ∧ separator ∉ body

variable {separator}

omit [DecidableEq α] in
theorem IsLine.ne_nil {line : List α} (isLine : IsLine separator line) : line ≠ [] := by
  obtain ⟨body, rfl, -⟩ := isLine
  simp

omit [DecidableEq α] in
theorem IsLine.getLast?_eq {line : List α} (isLine : IsLine separator line) :
    line.getLast? = some separator := by
  obtain ⟨body, rfl, -⟩ := isLine
  simp

theorem readUntil_of_notMem {xs : List α} (absent : separator ∉ xs) :
    readUntil separator xs = xs := by
  induction xs with
  | nil => rfl
  | cons a xs ih =>
    rw [List.mem_cons, not_or] at absent
    obtain ⟨other, later⟩ := absent
    rw [readUntil, if_neg (Ne.symm other), ih later]

theorem readUntil_line_append {line : List α} (isLine : IsLine separator line) (rest : List α) :
    readUntil separator (line ++ rest) = line := by
  obtain ⟨body, rfl, absent⟩ := isLine
  induction body with
  | nil => simp [readUntil]
  | cons a body ih =>
    rw [List.mem_cons, not_or] at absent
    obtain ⟨other, later⟩ := absent
    have step := ih later
    simp only [List.cons_append, readUntil, if_neg (Ne.symm other), step]

theorem cut_line_append {line : List α} (isLine : IsLine separator line) (rest : List α) :
    cut separator (line ++ rest) = (line :: lines separator rest, tail separator rest) := by
  obtain ⟨body, rfl, absent⟩ := isLine
  induction body with
  | nil => simp [cut, lines, tail]
  | cons a body ih =>
    rw [List.mem_cons, not_or] at absent
    obtain ⟨other, later⟩ := absent
    simp only [List.cons_append, cut, if_neg (Ne.symm other), ih later]

theorem cut_flatten_append {complete : List (List α)}
    (isLine : ∀ line ∈ complete, IsLine separator line) (rest : List α) :
    cut separator (complete.flatten ++ rest) =
      (complete ++ lines separator rest, tail separator rest) := by
  induction complete with
  | nil => rfl
  | cons line complete ih =>
    have step := ih fun other member =>
      isLine other (List.mem_cons_of_mem line member)
    rw [List.flatten_cons, List.append_assoc, cut_line_append (isLine line List.mem_cons_self),
      lines, tail, step, List.cons_append]

/-- A sequence is its complete lines and its tail. -/
theorem flatten_lines_append_tail (xs : List α) :
    (lines separator xs).flatten ++ tail separator xs = xs := by
  induction xs with
  | nil => rfl
  | cons a xs ih =>
    unfold lines tail at ih ⊢
    by_cases same : a = separator
    · simp [cut, same, ih]
    · cases below : (cut separator xs).1 with
      | nil =>
        rw [below] at ih
        simpa [cut, same, below] using ih
      | cons line complete =>
        rw [below] at ih
        simpa [cut, same, below] using ih

theorem isLine_of_mem_lines {xs line : List α} (member : line ∈ lines separator xs) :
    IsLine separator line := by
  induction xs generalizing line with
  | nil => simp [lines, cut] at member
  | cons a xs ih =>
    unfold lines at ih member
    by_cases same : a = separator
    · simp only [cut, if_pos same, List.mem_cons] at member
      rcases member with rfl | later
      · exact ⟨[], by rw [same]; rfl, by simp⟩
      · exact ih later
    · cases below : (cut separator xs).1 with
      | nil => simp [cut, same, below] at member
      | cons first complete =>
        rw [below] at ih
        simp only [cut, if_neg same, below, List.mem_cons] at member
        rcases member with rfl | later
        · obtain ⟨body, rfl, absent⟩ := ih List.mem_cons_self
          refine ⟨a :: body, rfl, ?_⟩
          rw [List.mem_cons, not_or]
          exact ⟨Ne.symm same, absent⟩
        · exact ih (List.mem_cons_of_mem first later)

theorem separator_notMem_tail (xs : List α) : separator ∉ tail separator xs := by
  induction xs with
  | nil => simp [tail, cut]
  | cons a xs ih =>
    unfold tail at ih ⊢
    by_cases same : a = separator
    · simpa [cut, same] using ih
    · cases below : (cut separator xs).1 with
      | nil =>
        simp only [cut, if_neg same, below, List.mem_cons, not_or]
        exact ⟨Ne.symm same, ih⟩
      | cons first complete => simpa [cut, same, below] using ih

/-- What is appended continues the tail. -/
theorem cut_append (xs ys : List α) :
    cut separator (xs ++ ys) =
      (lines separator xs ++ lines separator (tail separator xs ++ ys),
        tail separator (tail separator xs ++ ys)) := by
  have whole : (lines separator xs).flatten ++ tail separator xs = xs :=
    flatten_lines_append_tail xs
  have isLine : ∀ line ∈ lines separator xs, IsLine separator line := fun _ =>
    isLine_of_mem_lines
  have continued := cut_flatten_append isLine (tail separator xs ++ ys)
  rwa [← List.append_assoc, whole] at continued

theorem lines_append (xs ys : List α) :
    lines separator (xs ++ ys) =
      lines separator xs ++ lines separator (tail separator xs ++ ys) :=
  congrArg Prod.fst (cut_append xs ys)

/-- Behind the first lines stand the others and the tail. -/
theorem drop_length_flatten_take (xs : List α) (k : Nat) :
    xs.drop ((lines separator xs).take k).flatten.length =
      ((lines separator xs).drop k).flatten ++ tail separator xs := by
  have split : ((lines separator xs).take k).flatten ++
      (((lines separator xs).drop k).flatten ++ tail separator xs) = xs := by
    rw [← List.append_assoc, ← List.flatten_append, List.take_append_drop,
      flatten_lines_append_tail]
  have behind := congrArg (List.drop ((lines separator xs).take k).flatten.length) split
  rw [List.drop_left] at behind
  exact behind.symm

end Lines

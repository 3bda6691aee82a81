import Blaze.Ingest.FileLog

/-!
# What a log delivers

A poll should return the complete lines behind the last one it returned, numbered by
their place in the file, however the file grows between polls.  It does so unless it
reaches a tail that ends inside a character: the read of that tail fails, and it is not
taken back.  A seek should accept the offsets of complete lines; it also accepts that of
an unfinished one.
-/

namespace Blaze

open List Lines

variable {line : List UInt8} {log : FileLog}

section Specification

variable (parse : List UInt8 → Except String EdgeEvent)

/-- A line is text, not blank, and an event. -/
structure Decodes (line : List UInt8) (event : EdgeEvent) : Prop where
  utf8 : validUtf8 line = true
  notBlank : trimEnd line ≠ []
  parsed : parse (trimEnd line) = .ok event

/-- The record of a numbered line. -/
structure IsRecord (partition : PartitionId) (numbered : List UInt8 × Nat) (record : Record) :
    Prop where
  partition : record.partition = partition
  offset : record.offset = numbered.2
  event : Decodes parse numbered.1 record.event

/-- A partition as its consumer should see it: the file, and how many of its lines have
been returned. -/
structure LogView where
  partition : PartitionId
  content : List UInt8
  done : Nat

namespace LogView

def append (view : LogView) (bytes : List UInt8) : LogView :=
  { view with content := view.content ++ bytes }

/-- How many complete lines there are. -/
def complete (view : LogView) : Nat :=
  (lines newline view.content).length

/-- The next lines, at most so many, with their numbers. -/
def due (view : LogView) (most : Nat) : List (List UInt8 × Nat) :=
  (((lines newline view.content).zipIdx 1).drop view.done).take most

/-- Those lines have been returned. -/
def advance (view : LogView) (most : Nat) : LogView :=
  { view with done := min (view.done + most) view.complete }

/-- The complete lines that have not been returned are events. -/
def Valid (view : LogView) : Prop :=
  ∀ line ∈ (lines newline view.content).drop view.done, ∃ event, Decodes parse line event

/-- The tail is text if a poll gets to it. -/
def Readable (view : LogView) (most : Nat) : Prop :=
  view.complete < view.done + most → validUtf8 (tail newline view.content) = true

end LogView

end Specification

/-! ## One poll -/

namespace FileLog

/-- A reader has returned the first `done` lines. -/
structure At (view : LogView) (log : FileLog) : Prop where
  partition : log.partition = view.partition
  next : log.next = view.done
  position : log.position = ((lines newline view.content).take view.done).flatten.length
  inside : view.done ≤ view.complete

variable {parse : List UInt8 → Except String EdgeEvent} {view : LogView} {log : FileLog}

section Here

variable (here : At view log)

include here

theorem At.drop :
    view.content.drop log.position =
      ((lines newline view.content).drop view.done).flatten ++ tail newline view.content := by
  rw [here.position]
  exact drop_length_flatten_take view.content view.done

theorem At.append (bytes : List UInt8) : At (view.append bytes) log where
  partition := here.partition
  next := here.next
  position := by
    have inside : view.done ≤ (lines newline view.content).length := here.inside
    rw [here.position]
    change _ = ((lines newline (view.content ++ bytes)).take view.done).flatten.length
    rw [lines_append, take_append_of_le_length inside]
  inside := by
    refine here.inside.trans ?_
    change (lines newline view.content).length ≤ (lines newline (view.content ++ bytes)).length
    rw [lines_append, length_append]
    exact Nat.le_add_right _ _

/-- The reader stands before a complete line. -/
theorem At.readUntil_eq (found : (lines newline view.content)[view.done]? = some line) :
    readUntil newline (view.content.drop log.position) = line := by
  have isLine : IsLine newline line := isLine_of_mem_lines (mem_of_getElem? found)
  obtain ⟨bound, here'⟩ := List.getElem?_eq_some_iff.mp found
  rw [here.drop, drop_eq_getElem_cons bound, here', flatten_cons, append_assoc]
  exact readUntil_line_append isLine _

/-- The reader stands before the tail. -/
theorem At.readUntil_eq_tail (exhausted : view.done = view.complete) :
    readUntil newline (view.content.drop log.position) = tail newline view.content := by
  have none : (lines newline view.content).drop view.done = [] := by
    rw [exhausted]
    exact drop_length
  rw [here.drop, none, flatten_nil, nil_append]
  exact readUntil_of_notMem (separator_notMem_tail _)

theorem At.behind (found : (lines newline view.content)[view.done]? = some line) :
    At { view with done := view.done + 1 }
      { log with position := log.position + line.length, next := log.next + 1 } where
  partition := here.partition
  next := by rw [here.next]
  position := by
    obtain ⟨bound, here'⟩ := List.getElem?_eq_some_iff.mp found
    change log.position + line.length = _
    rw [here.position, take_succ_eq_append_getElem bound, here', flatten_append,
      length_append, flatten_singleton]
  inside := (List.getElem?_eq_some_iff.mp found).1

theorem At.readLine_eq {event : EdgeEvent}
    (found : (lines newline view.content)[view.done]? = some line)
    (decodes : Decodes parse line event) :
    log.readLine view.content =
      ({ log with position := log.position + line.length }, .ok (some (trimEnd line))) := by
  have isLine : IsLine newline line := isLine_of_mem_lines (mem_of_getElem? found)
  simp [readLine, here.readUntil_eq found, decodes.utf8, isLine.ne_nil, isLine.getLast?_eq]

theorem At.readLine_tail (exhausted : view.done = view.complete)
    (utf8 : validUtf8 (tail newline view.content) = true) :
    log.readLine view.content = (log, .ok none) := by
  have unfinished : (tail newline view.content).getLast? ≠ some newline := by
    intro last
    exact separator_notMem_tail view.content (mem_of_getLast? last)
  simp only [readLine, here.readUntil_eq_tail exhausted, utf8]
  simp [unfinished]

theorem At.readLine_broken (exhausted : view.done = view.complete)
    (broken : validUtf8 (tail newline view.content) = false) :
    (log.readLine view.content).2 = .error "stream did not contain valid UTF-8" := by
  simp [readLine, here.readUntil_eq_tail exhausted, broken]

/-- There is a next line, or all of them have been returned. -/
theorem At.next_line :
    (∃ line, (lines newline view.content)[view.done]? = some line) ∨ view.done = view.complete := by
  rcases Nat.lt_or_eq_of_le here.inside with more | exhausted
  · exact Or.inl ⟨_, getElem?_eq_getElem more⟩
  · exact Or.inr exhausted

end Here

theorem valid_next (valid : view.Valid parse)
    (found : (lines newline view.content)[view.done]? = some line) :
    (∃ event, Decodes parse line event) ∧
      LogView.Valid parse { view with done := view.done + 1 } := by
  obtain ⟨bound, here⟩ := List.getElem?_eq_some_iff.mp found
  unfold LogView.Valid at valid ⊢
  rw [drop_eq_getElem_cons bound, here] at valid
  exact ⟨valid line mem_cons_self, fun other member =>
    valid other (mem_cons_of_mem line member)⟩

theorem due_succ (found : (lines newline view.content)[view.done]? = some line) (room : Nat) :
    view.due (room + 1) =
      (line, view.done + 1) :: LogView.due { view with done := view.done + 1 } room := by
  obtain ⟨bound, here⟩ := List.getElem?_eq_some_iff.mp found
  have bound' : view.done < ((lines newline view.content).zipIdx 1).length := by
    rwa [length_zipIdx]
  unfold LogView.due
  rw [drop_eq_getElem_cons bound', take_succ_cons, getElem_zipIdx, here,
    Nat.add_comm 1]

theorem due_exhausted (exhausted : view.done = view.complete) (room : Nat) :
    view.due room = [] := by
  unfold LogView.due
  rw [drop_eq_nil_of_le (by rw [length_zipIdx, exhausted]; exact le_refl _),
    take_nil]

theorem At.advance_of_exhausted (here : At view log) {room : Nat}
    (exhausted : view.done = view.complete ∨ room = 0) : At (view.advance room) log := by
  have same : view.advance room = view := by
    have inside := here.inside
    unfold LogView.advance
    congr 1
    rcases exhausted with all | rfl
    · rw [Nat.min_eq_right (by omega), all]
    · rw [Nat.min_eq_left (by omega), Nat.add_zero]
  rw [same]
  exact here

/-- A poll that finds text returns the next lines. -/
theorem pollLoop_ok (room : Nat) (here : At view log) (valid : view.Valid parse)
    (readable : view.Readable room) (out : List Record) :
    ∃ log' records, pollLoop parse view.content room log out = (log', .ok (out ++ records)) ∧
      List.Forall₂ (IsRecord parse view.partition) (view.due room) records ∧
      At (view.advance room) log' := by
  induction room generalizing view log out with
  | zero =>
    refine ⟨log, [], by simp [pollLoop], ?_, here.advance_of_exhausted (Or.inr rfl)⟩
    simp [LogView.due]
  | succ room ih =>
    rcases here.next_line with ⟨line, found⟩ | exhausted
    · obtain ⟨⟨event, decodes⟩, later⟩ := valid_next valid found
      have read := here.readLine_eq found decodes
      have further : LogView.Readable { view with done := view.done + 1 } room := by
        intro reaches
        apply readable
        change view.complete < view.done + 1 + room at reaches
        omega
      have next := here.behind found
      obtain ⟨log', records, polled, batch, after⟩ := ih next later further
        (out ++ [⟨log.partition, log.next + 1, event⟩])
      refine ⟨log', ⟨log.partition, log.next + 1, event⟩ :: records, ?_, ?_, ?_⟩
      · simp only [pollLoop, read, if_neg decodes.notBlank, decodes.parsed]
        rw [polled, append_assoc, singleton_append]
      · rw [due_succ found]
        refine .cons ⟨here.partition, ?_, decodes⟩ batch
        change log.next + 1 = view.done + 1
        rw [here.next]
      · have same : view.advance (room + 1) =
            LogView.advance { view with done := view.done + 1 } room := by
          simp only [LogView.advance, LogView.complete]
          congr 2
          omega
        rw [same]
        exact after
    · have utf8 := readable (by omega)
      refine ⟨log, [], ?_, ?_, here.advance_of_exhausted (Or.inl exhausted)⟩
      · simp [pollLoop, here.readLine_tail exhausted utf8]
      · rw [due_exhausted exhausted]
        exact .nil

/-- A poll that reaches a tail that is no text fails. -/
theorem pollLoop_error (room : Nat) (here : At view log) (valid : view.Valid parse)
    (reaches : view.complete < view.done + room)
    (broken : validUtf8 (tail newline view.content) = false) (out : List Record) :
    (pollLoop parse view.content room log out).2 =
      .error "stream did not contain valid UTF-8" := by
  induction room generalizing view log out with
  | zero => exact absurd here.inside (Nat.not_le.mpr reaches)
  | succ room ih =>
    rcases here.next_line with ⟨line, found⟩ | exhausted
    · obtain ⟨⟨event, decodes⟩, later⟩ := valid_next valid found
      have read := here.readLine_eq found decodes
      simp only [pollLoop, read, if_neg decodes.notBlank, decodes.parsed]
      apply ih (here.behind found) later _ broken
      change view.complete < view.done + 1 + room
      omega
    · have failed := here.readLine_broken exhausted broken
      simp only [pollLoop]
      generalize log.readLine view.content = read at failed
      obtain ⟨after, result⟩ := read
      dsimp only at failed
      subst failed
      rfl

/-! ## Seeking -/

/-- A seek accepts the complete lines, and the tail as one more. -/
theorem seekLoop_ok_iff (offset missing : Nat) (here : At view log) :
    (seekLoop view.content offset missing log).2 = .ok () ↔
      view.done + missing ≤ view.complete ∨
        view.done + missing = view.complete + 1 ∧ tail newline view.content ≠ [] := by
  induction missing generalizing view log with
  | zero =>
    have inside := here.inside
    simp only [seekLoop, true_iff]
    omega
  | succ missing ih =>
    rcases here.next_line with ⟨line, found⟩ | exhausted
    · have isLine : IsLine newline line := isLine_of_mem_lines (mem_of_getElem? found)
      have step := ih (here.behind found)
      simp only [seekLoop, here.readUntil_eq found, if_neg isLine.ne_nil]
      rw [step, Nat.add_right_comm view.done 1 missing]
      rfl
    · have line := here.readUntil_eq_tail exhausted
      by_cases empty : tail newline view.content = []
      · simp only [seekLoop, line, empty, if_true, ne_eq, not_true_eq_false, and_false, or_false]
        refine ⟨fun impossible => ?_, fun small => ?_⟩
        · cases impossible
        · omega
      · simp only [seekLoop, line, if_neg empty]
        cases missing with
        | zero => simp [seekLoop, exhausted, empty]
        | succ missing =>
          have ended : readUntil newline (view.content.drop
              (log.position + (tail newline view.content).length)) = [] := by
            rw [← drop_drop, here.drop, exhausted]
            change readUntil newline (((((lines newline view.content).drop
              (lines newline view.content).length).flatten ++ _).drop _)) = []
            rw [drop_length, flatten_nil, nil_append, drop_length]
            rfl
          simp only [seekLoop, ended, if_true]
          refine ⟨fun impossible => ?_, fun small => ?_⟩
          · cases impossible
          · omega

/-- A seek to a complete line stands behind it. -/
theorem seekLoop_at (offset missing : Nat) (here : At view log)
    (inside : view.done + missing ≤ view.complete) :
    At { view with done := view.done + missing }
      (seekLoop view.content offset missing log).1 := by
  induction missing generalizing view log with
  | zero => exact here
  | succ missing ih =>
    rcases here.next_line with ⟨line, found⟩ | exhausted
    · have isLine : IsLine newline line := isLine_of_mem_lines (mem_of_getElem? found)
      have bound : view.done + 1 + missing ≤ view.complete := by omega
      have step := ih (here.behind found) bound
      dsimp only at step
      rw [Nat.add_right_comm view.done 1 missing] at step
      simp only [seekLoop, here.readUntil_eq found, if_neg isLine.ne_nil]
      exact step
    · omega

theorem at_start (content : List UInt8) (log : FileLog) :
    At ⟨log.partition, content, 0⟩ { log with position := 0, next := 0 } :=
  ⟨rfl, rfl, rfl, Nat.zero_le _⟩

/-- The partition after the records up to a position. -/
def viewAfter (content : List UInt8) (log : FileLog) (position : StreamPosition) : LogView :=
  ⟨log.partition, content, position.get log.partition⟩

/-- The position is one line behind the complete ones, and there is an unfinished
line. -/
def InTail (content : List UInt8) (log : FileLog) (position : StreamPosition) : Prop :=
  position.get log.partition = (lines newline content).length + 1 ∧ tail newline content ≠ []

theorem seek_ok_iff (content : List UInt8) (log : FileLog) (position : StreamPosition) :
    (log.seek content position).2 = .ok () ↔
      position.get log.partition ≤ (lines newline content).length ∨
        log.InTail content position := by
  have spec := seekLoop_ok_iff (position.get log.partition) (position.get log.partition)
    (at_start content log)
  rwa [Nat.zero_add] at spec

theorem seek_at {content : List UInt8} {position : StreamPosition}
    (inside : position.get log.partition ≤ (lines newline content).length) :
    At (log.viewAfter content position) (log.seek content position).1 := by
  have spec := seekLoop_at (position.get log.partition) (position.get log.partition)
    (at_start content log)
  rw [Nat.zero_add] at spec
  exact spec inside

end FileLog

/-! ## Runs of one file -/

/-- Bytes are appended to the file, or it is polled. -/
inductive LogStep where
  | append (bytes : List UInt8)
  | poll (most : Nat)

namespace FileLog

/-- What the polls of a schedule return. -/
def run (parse : List UInt8 → Except String EdgeEvent) :
    List LogStep → List UInt8 → FileLog → List (Except String (List Record))
  | [], _, _ => []
  | .append bytes :: steps, content, log => run parse steps (content ++ bytes) log
  | .poll most :: steps, content, log =>
      (log.poll parse content most).2 :: run parse steps content (log.poll parse content most).1

/-- Every poll returns the next lines, as many as it asks for or as there are. -/
def Delivers (parse : List UInt8 → Except String EdgeEvent) :
    List LogStep → LogView → List (Except String (List Record)) → Prop
  | [], _, results => results = []
  | .append bytes :: steps, view, results => Delivers parse steps (view.append bytes) results
  | .poll most :: steps, view, results =>
      ∃ records rest, results = .ok records :: rest ∧
        List.Forall₂ (IsRecord parse view.partition) (view.due most) records ∧
        Delivers parse steps (view.advance most) rest

/-- At every poll the lines to be returned are events. -/
def ValidLines (parse : List UInt8 → Except String EdgeEvent) : List LogStep → LogView → Prop
  | [], _ => True
  | .append bytes :: steps, view => ValidLines parse steps (view.append bytes)
  | .poll most :: steps, view =>
      view.Valid parse ∧ ValidLines parse steps (view.advance most)

/-- Every poll that gets to the tail finds text there. -/
def ReadableTails : List LogStep → LogView → Prop
  | [], _ => True
  | .append bytes :: steps, view => ReadableTails steps (view.append bytes)
  | .poll most :: steps, view => view.Readable most ∧ ReadableTails steps (view.advance most)

/-- From a reader behind a line on, a schedule delivers the lines exactly when it finds
text wherever it looks. -/
theorem delivers_iff {parse : List UInt8 → Except String EdgeEvent} (steps : List LogStep)
    {view : LogView} (here : At view log) (valid : ValidLines parse steps view) :
    Delivers parse steps view (log.run parse steps view.content) ↔ ReadableTails steps view := by
  induction steps generalizing view log with
  | nil => simp [Delivers, run, ReadableTails]
  | cons step steps ih =>
    cases step with
    | append bytes => exact ih (here.append bytes) valid
    | poll most =>
      obtain ⟨now, later⟩ := valid
      by_cases readable : view.Readable most
      · obtain ⟨log', records, polled, batch, after⟩ := pollLoop_ok most here now readable []
        rw [nil_append] at polled
        have rest := ih after later
        simp only [Delivers, run, poll, polled, ReadableTails]
        constructor
        · rintro ⟨records', rest', same, -, delivers⟩
          rw [List.cons.injEq] at same
          rw [← same.2] at delivers
          exact ⟨readable, rest.mp delivers⟩
        · rintro ⟨-, readableLater⟩
          exact ⟨records, _, rfl, batch, rest.mpr readableLater⟩
      · obtain ⟨reaches, broken⟩ := Classical.not_imp.mp readable
        have failed := pollLoop_error most here now reaches (Bool.not_eq_true _ ▸ broken) []
        simp only [Delivers, run, poll, failed, ReadableTails]
        constructor
        · rintro ⟨records, rest, same, -⟩
          simp at same
        · rintro ⟨impossible, -⟩
          exact absurd impossible readable

end FileLog

end Blaze

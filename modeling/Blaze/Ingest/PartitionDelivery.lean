import Blaze.Ingest.LogDelivery

/-!
# What several partitions deliver

The partitions of a log are files that are polled in turn, each for its share.  As long
as no file fails, every one of them delivers its own lines, whatever the others hold.
-/

namespace Blaze

open Lines

/-- Bytes are appended to the file of a part, or the log is polled. -/
inductive PartStep where
  | append (part : Nat) (bytes : List UInt8)
  | poll (most : Nat)

namespace PartitionedLog

/-- What the polls of a schedule return. -/
def run (parse : List UInt8 → Except String EdgeEvent) :
    List PartStep → List LogPart → List (Except String (List Record))
  | [], _ => []
  | .append i bytes :: steps, parts =>
      run parse steps (parts.modify i fun part => { part with content := part.content ++ bytes })
  | .poll most :: steps, parts =>
      (poll parse parts most).2 :: run parse steps (poll parse parts most).1

/-- Every poll returns the next lines of each part, as many as its share or as there
are, one part after the other. -/
def Delivers (parse : List UInt8 → Except String EdgeEvent) :
    List PartStep → List LogView → List (Except String (List Record)) → Prop
  | [], _, results => results = []
  | .append i bytes :: steps, views, results =>
      Delivers parse steps (views.modify i fun view => view.append bytes) results
  | .poll most :: steps, views, results =>
      ∃ batches rest, results = .ok batches.flatten :: rest ∧
        List.Forall₂ (fun view batch => List.Forall₂ (IsRecord parse view.partition)
          (view.due (share views.length most)) batch) views batches ∧
        Delivers parse steps (views.map fun view => view.advance (share views.length most)) rest

/-- At every poll the lines to be returned are events. -/
def ValidLines (parse : List UInt8 → Except String EdgeEvent) :
    List PartStep → List LogView → Prop
  | [], _ => True
  | .append i bytes :: steps, views =>
      ValidLines parse steps (views.modify i fun view => view.append bytes)
  | .poll most :: steps, views =>
      (∀ view ∈ views, view.Valid parse) ∧
        ValidLines parse steps (views.map fun view => view.advance (share views.length most))

/-- Every poll that gets to the tail of a part finds text there. -/
def ReadableTails : List PartStep → List LogView → Prop
  | [], _ => True
  | .append i bytes :: steps, views =>
      ReadableTails steps (views.modify i fun view => view.append bytes)
  | .poll most :: steps, views =>
      (∀ view ∈ views, view.Readable (share views.length most)) ∧
        ReadableTails steps (views.map fun view => view.advance (share views.length most))

/-! ## One round -/

/-- The reader of a part stands where its view says. -/
structure PartAt (view : LogView) (part : LogPart) : Prop where
  content : part.content = view.content
  log : FileLog.At view part.log

variable {parse : List UInt8 → Except String EdgeEvent} {views : List LogView}
  {parts : List LogPart}

theorem partAt_modify (here : List.Forall₂ PartAt views parts) (i : Nat) (bytes : List UInt8) :
    List.Forall₂ PartAt (views.modify i fun view => view.append bytes)
      (parts.modify i fun part => { part with content := part.content ++ bytes }) := by
  induction here generalizing i with
  | nil => simp
  | cons first rest ih =>
    cases i with
    | zero =>
      exact .cons ⟨congrArg (· ++ bytes) first.content, first.log.append bytes⟩ rest
    | succ i => exact .cons first (ih i)

theorem pollParts_ok (here : List.Forall₂ PartAt views parts) {share : Nat}
    (valid : ∀ view ∈ views, view.Valid parse) (readable : ∀ view ∈ views, view.Readable share) :
    ∃ parts' batches, pollParts parse share parts = (parts', .ok batches.flatten) ∧
      List.Forall₂ (fun view batch => List.Forall₂ (IsRecord parse view.partition)
        (view.due share) batch) views batches ∧
      List.Forall₂ PartAt (views.map fun view => view.advance share) parts' := by
  induction here with
  | nil => exact ⟨[], [], rfl, .nil, .nil⟩
  | @cons view part views parts first rest ih =>
    rw [List.forall_mem_cons] at valid readable
    obtain ⟨log, records, polled, batch, after⟩ :=
      FileLog.pollLoop_ok share first.log valid.1 readable.1 []
    obtain ⟨parts', batches, polledRest, batchRest, afterRest⟩ :=
      ih valid.2 readable.2
    refine ⟨⟨part.content, log⟩ :: parts', records :: batches, ?_, .cons batch batchRest,
      .cons ⟨first.content, after⟩ afterRest⟩
    simp only [pollParts, FileLog.poll, first.content, polled, polledRest]
    rfl

theorem pollParts_error (here : List.Forall₂ PartAt views parts) {share : Nat}
    (valid : ∀ view ∈ views, view.Valid parse) (broken : ∃ view ∈ views, ¬ view.Readable share) :
    ∃ e, (pollParts parse share parts).2 = .error e := by
  induction here with
  | nil => simp at broken
  | @cons view part views parts first rest ih =>
    rw [List.forall_mem_cons] at valid
    by_cases readable : view.Readable share
    · obtain ⟨log, records, polled, -⟩ :=
        FileLog.pollLoop_ok share first.log valid.1 readable []
      have later : ∃ other ∈ views, ¬ other.Readable share := by
        obtain ⟨other, member, notText⟩ := broken
        rcases List.mem_cons.mp member with rfl | later
        · exact absurd readable notText
        · exact ⟨other, later, notText⟩
      obtain ⟨e, failed⟩ := ih valid.2 later
      refine ⟨e, ?_⟩
      simp only [pollParts, FileLog.poll, first.content, polled, failed]
      rfl
    · obtain ⟨reaches, notText⟩ := Classical.not_imp.mp readable
      have failed := FileLog.pollLoop_error share first.log valid.1 reaches
        (Bool.not_eq_true _ ▸ notText) []
      refine ⟨"stream did not contain valid UTF-8", ?_⟩
      simp only [pollParts, FileLog.poll, first.content]
      generalize FileLog.pollLoop parse view.content share part.log [] = read at failed
      obtain ⟨log, result⟩ := read
      dsimp only at failed
      subst failed
      rfl

/-! ## Runs -/

theorem delivers_iff (steps : List PartStep) (here : List.Forall₂ PartAt views parts)
    (valid : ValidLines parse steps views) :
    Delivers parse steps views (run parse steps parts) ↔ ReadableTails steps views := by
  induction steps generalizing views parts with
  | nil => simp [Delivers, run, ReadableTails]
  | cons step steps ih =>
    cases step with
    | append i bytes => exact ih (partAt_modify here i bytes) valid
    | poll most =>
      obtain ⟨now, later⟩ := valid
      simp only [Delivers, run, poll, ReadableTails, ← here.length_eq]
      by_cases readable : ∀ view ∈ views, view.Readable (share views.length most)
      · obtain ⟨parts', batches, polled, batch, after⟩ := pollParts_ok here now readable
        have rest := ih after later
        rw [polled]
        constructor
        · rintro ⟨batches', rest', same, -, delivers⟩
          rw [List.cons.injEq] at same
          rw [← same.2] at delivers
          exact ⟨readable, rest.mp delivers⟩
        · rintro ⟨-, readableLater⟩
          exact ⟨batches, _, rfl, batch, rest.mpr readableLater⟩
      · obtain ⟨e, failed⟩ := pollParts_error here now (by simpa using readable)
        rw [failed]
        constructor
        · rintro ⟨batches, rest, same, -⟩
          simp at same
        · rintro ⟨impossible, -⟩
          exact absurd impossible readable

/-! ## Seeking -/

/-- The partitions after the records up to a position. -/
def viewsAfter (position : StreamPosition) (parts : List LogPart) : List LogView :=
  parts.map fun part => part.log.viewAfter part.content position

/-- The offset of a part in the position is that of a complete line. -/
def Covered (position : StreamPosition) (part : LogPart) : Prop :=
  position.get part.log.partition ≤ (lines newline part.content).length

theorem seek_ok_iff (position : StreamPosition) (parts : List LogPart) :
    (seek position parts).2 = .ok () ↔
      ∀ part ∈ parts, Covered position part ∨ part.log.InTail part.content position := by
  induction parts with
  | nil => simp [seek]
  | cons part parts ih =>
    have first := FileLog.seek_ok_iff part.content part.log position
    rw [List.forall_mem_cons, ← ih]
    unfold Covered
    rw [← first]
    simp only [seek]
    generalize part.log.seek part.content position = sought
    obtain ⟨log, result⟩ := sought
    cases result with
    | error e => simp
    | ok value => simp

theorem seek_at {position : StreamPosition} {parts : List LogPart}
    (covered : ∀ part ∈ parts, Covered position part) :
    List.Forall₂ PartAt (viewsAfter position parts) (seek position parts).1 := by
  induction parts with
  | nil => exact .nil
  | cons part parts ih =>
    rw [List.forall_mem_cons] at covered
    have accepted := (FileLog.seek_ok_iff part.content part.log position).mpr (Or.inl covered.1)
    have here := FileLog.seek_at covered.1
    simp only [seek]
    generalize part.log.seek part.content position = sought at accepted here
    obtain ⟨log, result⟩ := sought
    dsimp only at accepted here
    subst accepted
    exact .cons ⟨rfl, here⟩ (ih covered.2)

end PartitionedLog

/-! ## The log -/

/-- Seeking accepts too much exactly at an unfinished line, and elsewhere what is
delivered depends on the tails. -/
theorem resumes_iff {ok inside inTail delivered readable : Prop} (accepted : ok ↔ inside ∨ inTail)
    (apart : inside → ¬ inTail) (delivers : inside → (delivered ↔ readable)) :
    ((ok ↔ inside) ∧ (ok → delivered)) ↔ ¬ inTail ∧ (inside → readable) := by
  constructor
  · rintro ⟨exactly, delivered⟩
    refine ⟨fun unfinished => ?_, fun covered => ?_⟩
    · exact apart (exactly.mp (accepted.mpr (Or.inr unfinished))) unfinished
    · exact (delivers covered).mp (delivered (exactly.mpr covered))
  · rintro ⟨finished, text⟩
    have exactly : ok ↔ inside := accepted.trans (or_iff_left finished)
    refine ⟨exactly, fun accepted => ?_⟩
    have covered := exactly.mp accepted
    exact (delivers covered).mpr (text covered)

/-- A log accepts a position exactly when it has the complete lines before it, and from
there on every schedule of polls and appends delivers the lines behind the position, in
order, once each and under their numbers: a single file does so exactly when the position
is not that of an unfinished line and no poll reaches a tail that is no text, and a log of
several files exactly when that holds of its files. -/
theorem log_delivers_lines_iff (parse : List UInt8 → Except String EdgeEvent)
    (position : StreamPosition) :
    (∀ (log : FileLog) (content : List UInt8) (steps : List LogStep),
      FileLog.ValidLines parse steps (log.viewAfter content position) →
      (((((log.seek content position).2 = .ok () ↔
            position.get log.partition ≤ (lines newline content).length) ∧
          ((log.seek content position).2 = .ok () →
            FileLog.Delivers parse steps (log.viewAfter content position)
              ((log.seek content position).1.run parse steps content))) ↔
        ¬ log.InTail content position ∧
          (position.get log.partition ≤ (lines newline content).length →
            FileLog.ReadableTails steps (log.viewAfter content position))))) ∧
    ∀ (parts : List LogPart) (steps : List PartStep),
      PartitionedLog.ValidLines parse steps (PartitionedLog.viewsAfter position parts) →
      ((((PartitionedLog.seek position parts).2 = .ok () ↔
            ∀ part ∈ parts, PartitionedLog.Covered position part) ∧
          ((PartitionedLog.seek position parts).2 = .ok () →
            PartitionedLog.Delivers parse steps (PartitionedLog.viewsAfter position parts)
              (PartitionedLog.run parse steps (PartitionedLog.seek position parts).1))) ↔
        ¬ ((∀ part ∈ parts, PartitionedLog.Covered position part ∨
              part.log.InTail part.content position) ∧
            ∃ part ∈ parts, part.log.InTail part.content position) ∧
          ((∀ part ∈ parts, PartitionedLog.Covered position part) →
            PartitionedLog.ReadableTails steps (PartitionedLog.viewsAfter position parts))) := by
  have apart : ∀ (log : FileLog) (content : List UInt8),
      position.get log.partition ≤ (lines newline content).length →
        ¬ log.InTail content position := by
    rintro log content inside ⟨beyond, -⟩
    omega
  constructor
  · intro log content steps valid
    exact resumes_iff (FileLog.seek_ok_iff content log position) (apart log content)
      fun inside => FileLog.delivers_iff steps (FileLog.seek_at inside) valid
  · intro parts steps valid
    refine resumes_iff ?_ ?_ fun inside =>
      PartitionedLog.delivers_iff steps (PartitionedLog.seek_at inside) valid
    · -- a position that is accepted everywhere is covered everywhere or somewhere in a tail
      rw [PartitionedLog.seek_ok_iff]
      constructor
      · intro all
        by_cases some : ∃ part ∈ parts, part.log.InTail part.content position
        · exact Or.inr ⟨all, some⟩
        · push Not at some
          exact Or.inl fun part member => (all part member).resolve_right (some part member)
      · rintro (covered | ⟨all, -⟩)
        · exact fun part member => Or.inl (covered part member)
        · exact all
    · rintro covered ⟨-, part, member, inTail⟩
      exact apart part.log part.content (covered part member) inTail

/-- An event as `serde_json` prints it. -/
def Script.eventText : List UInt8 :=
  ("\x7b\"src\":4,\"dst\":2,\"visibility\":\"global\"," ++
    "\"event_time_ms\":0\x7d").toUTF8.data.toList

/-- What `serde_json` reads in that text. -/
def Script.parseEvent (line : List UInt8) : Except String EdgeEvent :=
  if line = eventText then .ok ⟨4, 2, .global, 0, none⟩
  else .error "expected value at line 1 column 1"

/-- A line is finished between two polls: the first returns nothing, and the second the
line under its number. -/
theorem log_delivers_lines_iff_mid_write :
    let text := Script.eventText
    let content := text ++ [newline] ++ text.take 9
    let steps : List LogStep := [.poll 5, .append (text.drop 9 ++ [newline]), .poll 5]
    let results : List (Except String (List Record)) :=
      [.ok [], .ok [⟨0, 2, ⟨4, 2, .global, 0, none⟩⟩]]
    let sought := FileLog.opened.seek content (.single 1)
    sought.2 = .ok () ∧ sought.1.run Script.parseEvent steps content = results ∧
      FileLog.Delivers Script.parseEvent steps ⟨0, content, 1⟩ results := by
  intro text content steps results sought
  have start : FileLog.opened.viewAfter content (.single 1) = ⟨0, content, 1⟩ := by
    rw [FileLog.viewAfter, show FileLog.opened.partition = 0 from rfl,
      StreamPosition.get_single_zero]
  have valid : FileLog.ValidLines Script.parseEvent steps ⟨0, content, 1⟩ := by
    refine ⟨?_, ?_, trivial⟩
    · intro line member
      have none : (lines newline content).drop 1 = [] := by decide +kernel
      rw [none] at member
      cases member
    · intro line member
      have one : (lines newline (content ++ (text.drop 9 ++ [newline]))).drop 1 =
          [text ++ [newline]] := by decide +kernel
      change line ∈ (lines newline (content ++ (text.drop 9 ++ [newline]))).drop 1 at member
      rw [one, List.mem_singleton] at member
      subst member
      exact ⟨⟨4, 2, .global, 0, none⟩, by decide +kernel, by decide +kernel, by decide +kernel⟩
  have readable : FileLog.ReadableTails steps ⟨0, content, 1⟩ :=
    ⟨fun _ => by decide +kernel, fun _ => by decide +kernel, trivial⟩
  have accepted : sought.2 = .ok () := by decide +kernel
  have returned : sought.1.run Script.parseEvent steps content = results := by decide +kernel
  have spec := (log_delivers_lines_iff Script.parseEvent (.single 1)).1 FileLog.opened content steps
  rw [start] at spec
  have delivers :=
    ((spec valid).mpr ⟨fun inTail => absurd inTail.1 (by decide +kernel), fun _ => readable⟩).2
  rw [← returned]
  exact ⟨accepted, rfl, delivers accepted⟩

/-- A seek to the unfinished line of a file without a complete one succeeds; when the
line, which began with a blank, is finished, its rest is returned under the number of the
next line.  And a poll that finds the first byte of a character behind a complete line
fails and returns neither that line nor, when it is finished, the next one. -/
theorem log_misses_lines :
    let text := Script.eventText
    let begun := "\x7b\"props\":\"".toUTF8.data.toList ++ [0xc3]
    let ended := 0xa9 :: "\",".toUTF8.data.toList ++ text.tail ++ [newline]
    let sought := FileLog.opened.seek [0x20] (.single 1)
    (sought.2 = .ok () ∧ lines newline [0x20] = [] ∧
        sought.1.run Script.parseEvent [.append (text ++ [newline]), .poll 5] [0x20] =
          [.ok [⟨0, 2, ⟨4, 2, .global, 0, none⟩⟩]]) ∧
      validUtf8 (begun ++ ended) = true ∧
      FileLog.opened.run Script.parseEvent [.poll 5, .append ended, .poll 5]
          (text ++ [newline] ++ begun) =
        [.error "stream did not contain valid UTF-8",
          .error "stream did not contain valid UTF-8"] := by
  decide +kernel

end Blaze

import Blaze.Ingest.Buffer
import Blaze.Lib.Lines

/-!
# A newline-delimited file as a log

The offset of a record is the number of its line.  A reader stands at a byte of the
file; it reads on while another process appends.  Polling leaves an unfinished line for
later, seeking skips lines without looking into them, and several files are polled as
the partitions of one log.

`serde_json` is a parameter that takes the bytes of a line.
-/

namespace Blaze

open Lines

/-! ## Text -/

def newline : UInt8 := 0x0a

def carriageReturn : UInt8 := 0x0d

/-- The ranges of the bytes that have to follow a first byte of a character. -/
def continuations (first : UInt8) : Option (List (UInt8 × UInt8)) :=
  if first ≤ 0x7f then some []
  else if 0xc2 ≤ first ∧ first ≤ 0xdf then some [(0x80, 0xbf)]
  else if first = 0xe0 then some [(0xa0, 0xbf), (0x80, 0xbf)]
  else if 0xe1 ≤ first ∧ first ≤ 0xec then some [(0x80, 0xbf), (0x80, 0xbf)]
  else if first = 0xed then some [(0x80, 0x9f), (0x80, 0xbf)]
  else if 0xee ≤ first ∧ first ≤ 0xef then some [(0x80, 0xbf), (0x80, 0xbf)]
  else if first = 0xf0 then some [(0x90, 0xbf), (0x80, 0xbf), (0x80, 0xbf)]
  else if 0xf1 ≤ first ∧ first ≤ 0xf3 then some [(0x80, 0xbf), (0x80, 0xbf), (0x80, 0xbf)]
  else if first = 0xf4 then some [(0x80, 0x8f), (0x80, 0xbf), (0x80, 0xbf)]
  else none

/-- Whether bytes complete a character that was begun and go on as UTF-8. -/
def validUtf8From : List (UInt8 × UInt8) → List UInt8 → Bool
  | expected, [] => expected.isEmpty
  | [], byte :: bytes =>
      match continuations byte with
      | none => false
      | some expected => validUtf8From expected bytes
  | range :: expected, byte :: bytes =>
      decide (range.1 ≤ byte ∧ byte ≤ range.2) && validUtf8From expected bytes

/-- Whether bytes are UTF-8. -/
def validUtf8 (bytes : List UInt8) : Bool :=
  validUtf8From [] bytes

/-- A line without the newlines and carriage returns at its end. -/
def trimEnd (line : List UInt8) : List UInt8 :=
  (line.reverse.dropWhile fun byte => byte = newline ∨ byte = carriageReturn).reverse

/-! ## One file -/

/-- A reader of one file: the partition the file is, the byte it stands at, and the
offset of the last record it returned. -/
structure FileLog where
  partition : PartitionId
  position : Nat
  next : Nat
  deriving DecidableEq, Repr

namespace FileLog

/-- A reader at the beginning. -/
def opened : FileLog :=
  ⟨0, 0, 0⟩

/-- Read one line, or nothing at the end of the file.  The read of an unfinished line
is taken back; that of a line that is no text is not. -/
def readLine (log : FileLog) (content : List UInt8) :
    FileLog × Except String (Option (List UInt8)) :=
  let line := readUntil newline (content.drop log.position)
  let behind := { log with position := log.position + line.length }
  if ¬ validUtf8 line then
    (behind, .error "stream did not contain valid UTF-8")
  else if line = [] then
    (log, .ok none)
  else if line.getLast? ≠ some newline then
    (log, .ok none)
  else
    (behind, .ok (some (trimEnd line)))

/-- Read up to `room` more records. -/
def pollLoop (parse : List UInt8 → Except String EdgeEvent) (content : List UInt8) :
    Nat → FileLog → List Record → FileLog × Except String (List Record)
  | 0, log, out => (log, .ok out)
  | room + 1, log, out =>
      match log.readLine content with
      | (log, .error e) => (log, .error e)
      | (log, .ok none) => (log, .ok out)
      | (log, .ok (some line)) =>
          if line = [] then
            (log, .error s!"blank line at offset {log.next + 1}")
          else
            match parse line with
            | .error e => (log, .error s!"offset {log.next + 1}: {e}")
            | .ok event =>
                let log := { log with next := log.next + 1 }
                pollLoop parse content room log (out ++ [⟨log.partition, log.next, event⟩])

/-- Fetch up to `most` records. -/
def poll (parse : List UInt8 → Except String EdgeEvent) (content : List UInt8) (log : FileLog)
    (most : Nat) : FileLog × Except String (List Record) :=
  pollLoop parse content most log []

/-- Skip lines up to an offset. -/
def seekLoop (content : List UInt8) (offset : Nat) : Nat → FileLog → FileLog × Except String Unit
  | 0, log => (log, .ok ())
  | missing + 1, log =>
      let line := readUntil newline (content.drop log.position)
      if line = [] then
        (log, .error (s!"cannot resume partition {log.partition} at offset {offset}: the log " ++
          s!"ends at {log.next}. The committed position is past the end of this log, which " ++
          "usually means the worker is pointed at a different stream than the one its " ++
          "snapshots were built from."))
      else
        seekLoop content offset missing
          { log with position := log.position + line.length, next := log.next + 1 }

/-- Position the reader behind the record at its offset of the position. -/
def seek (content : List UInt8) (log : FileLog) (position : StreamPosition) :
    FileLog × Except String Unit :=
  let offset := position.get log.partition
  seekLoop content offset offset { log with position := 0, next := 0 }

end FileLog

/-! ## Several files -/

/-- A file and its reader. -/
structure LogPart where
  content : List UInt8
  log : FileLog

namespace PartitionedLog

/-- Poll the parts in turn; the first error ends the round. -/
def pollParts (parse : List UInt8 → Except String EdgeEvent) (share : Nat) :
    List LogPart → List LogPart × Except String (List Record)
  | [] => ([], .ok [])
  | part :: parts =>
      match part.log.poll parse part.content share with
      | (log, .error e) => (⟨part.content, log⟩ :: parts, .error e)
      | (log, .ok records) =>
          let (parts, polled) := pollParts parse share parts
          (⟨part.content, log⟩ :: parts, polled.map (records ++ ·))

/-- What one of so many parts contributes to a poll. -/
def share (parts most : Nat) : Nat :=
  max ((most + parts - 1) / parts) 1

/-- Take a slice from every partition. -/
def poll (parse : List UInt8 → Except String EdgeEvent) (parts : List LogPart) (most : Nat) :
    List LogPart × Except String (List Record) :=
  pollParts parse (share parts.length most) parts

/-- Position every part. -/
def seek (position : StreamPosition) : List LogPart → List LogPart × Except String Unit
  | [] => ([], .ok ())
  | part :: parts =>
      match part.log.seek part.content position with
      | (log, .error e) => (⟨part.content, log⟩ :: parts, .error e)
      | (log, .ok ()) =>
          let (parts, sought) := seek position parts
          (⟨part.content, log⟩ :: parts, sought)

end PartitionedLog

end Blaze

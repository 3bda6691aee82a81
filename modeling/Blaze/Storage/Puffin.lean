import Blaze.Storage.Blobs

/-!
# The Puffin container

A file is the leading magic, the blobs one after the other, and a footer: the magic
again, the metadata of the blobs as JSON, its length, flags and the magic once more.
The reader works backwards from the end of the file and trusts none of the lengths and
offsets it meets.  The JSON codec is a parameter.
-/

namespace Blaze.Puffin

open List Bytes Fallible

variable {info : BlobMetadata} {blob : Blob} {file data body payload : List UInt8}
  {index : BlobIndex} {codec : FooterCodec} {blobs : List Blob}
  {properties : List (String × String)} {parsed : FileMetadata}

def magic : List UInt8 := [0x50, 0x46, 0x41, 0x31]

/-- Why a file is refused. -/
inductive PuffinError where
  | tooSmall
  | badMagic (place : String)
  | badFooter (cause : String)
  | blobOutOfBounds (offset length : UInt64) (fileLen : Nat)
  | unsupportedFlags (flags : Nat)
  deriving DecidableEq, Repr

def PuffinError.message : PuffinError → String
  | .tooSmall => "file too small to be a puffin file"
  | .badMagic place => s!"bad magic at {place}"
  | .badFooter cause => s!"footer payload is not valid metadata json: {cause}"
  | .blobOutOfBounds offset length fileLen =>
      s!"blob range {offset}+{length} out of bounds (file len {fileLen})"
  | .unsupportedFlags flags =>
      "unsupported footer flags 0x" ++ String.ofList (Nat.toDigits 16 flags) ++
        " (compressed footers not supported)"

/-- Where a blob lives inside the file. -/
structure BlobIndex where
  blobType : String
  offset : Nat
  length : Nat
  properties : List (String × String)
  snapshotId : Int64
  sequenceNumber : Int64
  deriving DecidableEq

/-- What the footer says about a blob. -/
structure BlobMetadata where
  blobType : String
  fields : List Int32
  snapshotId : Int64
  sequenceNumber : Int64
  offset : UInt64
  length : UInt64
  compressionCodec : Option String
  properties : List (String × String)
  deriving DecidableEq

structure FileMetadata where
  blobs : List BlobMetadata
  properties : List (String × String)
  deriving DecidableEq

/-- Printing and parsing the footer. -/
structure FooterCodec where
  toVec : FileMetadata → List UInt8
  fromSlice : List UInt8 → Except String FileMetadata

/-- The footer is parsed as it was printed. -/
def FooterCodec.Restores (codec : FooterCodec) (footer : FileMetadata) : Prop :=
  codec.fromSlice (codec.toVec footer) = .ok footer

/-! ## Writing -/

/-- The metadata of a blob at an offset. -/
def blobMetadata (offset : Nat) (blob : Blob) : BlobMetadata where
  blobType := blob.blobType
  fields := []
  snapshotId := blob.snapshotId
  sequenceNumber := blob.sequenceNumber
  offset := UInt64.ofNat offset
  length := UInt64.ofNat blob.data.length
  compressionCodec := none
  properties := blob.properties

/-- Put a blob at the end of the file, and note where. -/
def writeBlob (out : List UInt8 × List BlobMetadata) (blob : Blob) :
    List UInt8 × List BlobMetadata :=
  (out.1 ++ blob.data, out.2 ++ [blobMetadata out.1.length blob])

/-- The leading magic and the blobs, with the metadata of the blobs. -/
def writeBlobs (blobs : List Blob) : List UInt8 × List BlobMetadata :=
  blobs.foldl writeBlob (magic, [])

def footer (blobs : List Blob) (properties : List (String × String)) : FileMetadata :=
  ⟨(writeBlobs blobs).2, properties⟩

/-- The bytes of a file with a given footer payload. -/
def frame (body payload : List UInt8) : List UInt8 :=
  body ++ magic ++ payload ++ putLe 4 payload.length ++ putLe 4 0 ++ magic

/-- Serialize blobs into a complete Puffin file. -/
def write (codec : FooterCodec) (blobs : List Blob) (properties : List (String × String)) :
    Except Fault (List UInt8) :=
  let payload := codec.toVec (footer blobs properties)
  if payload.length < 2 ^ 32 then
    .ok (frame (writeBlobs blobs).1 payload)
  else
    .error .panic

/-! ## Reading -/

/-- Check that a blob lies between the leading magic and the footer. -/
def locate (fileLen magicStart : Nat) (info : BlobMetadata) : Except Fault BlobIndex :=
  let start := info.offset.toNat
  let stop := min (start + info.length.toNat) (2 ^ 64 - 1)
  if start < magic.length ∨ magicStart < stop then
    .error (.refused (PuffinError.blobOutOfBounds info.offset info.length fileLen).message)
  else
    .ok ⟨info.blobType, start, info.length.toNat, info.properties, info.snapshotId,
      info.sequenceNumber⟩

def parseFooter (codec : FooterCodec) (payload : List UInt8) : Except Fault FileMetadata :=
  match codec.fromSlice payload with
  | .error cause => .error (.refused (PuffinError.badFooter cause).message)
  | .ok parsed => .ok parsed

/-- Parse the footer and say where each blob lives. -/
def readIndex (codec : FooterCodec) (data : List UInt8) : Except Fault (List BlobIndex) := do
  let n := data.length
  ensure (magic.length * 3 + 8 ≤ n) PuffinError.tooSmall.message
  let head ← part data 0 4
  ensure (head = magic) (PuffinError.badMagic "file start").message
  let tail ← part data (n - 4) n
  ensure (tail = magic) (PuffinError.badMagic "file end").message
  let flags ← readLe 4 data (n - 8)
  ensure (flags = 0) (PuffinError.unsupportedFlags flags).message
  let payloadLen ← readLe 4 data (n - 12)
  let payloadEnd := n - 12
  ensure (payloadLen ≤ payloadEnd) PuffinError.tooSmall.message
  let payloadStart := payloadEnd - payloadLen
  ensure (4 ≤ payloadStart) PuffinError.tooSmall.message
  let magicStart := payloadStart - 4
  let marker ← part data magicStart payloadStart
  ensure (marker = magic) (PuffinError.badMagic "footer start").message
  let payload ← part data payloadStart payloadEnd
  let parsed ← parseFooter codec payload
  parsed.blobs.mapM (locate n magicStart)

/-- Copy one blob out of the file. -/
def readBlob (data : List UInt8) (index : BlobIndex) : Except Fault Blob := do
  let bytes ← part data index.offset ((index.offset + index.length) % 2 ^ 64)
  .ok ⟨index.blobType, bytes, index.properties, index.snapshotId, index.sequenceNumber⟩

/-- Parse a Puffin file into owned blobs. -/
def read (codec : FooterCodec) (data : List UInt8) : Except Fault (List Blob) := do
  let index ← readIndex codec data
  index.mapM (readBlob data)

/-! ## Where the blobs of a written file stand -/

/-- A blob stands in the bytes where its metadata says, behind the leading magic. -/
def Placed (body : List UInt8) (info : BlobMetadata) (blob : Blob) : Prop :=
  ∃ before after, body = before ++ blob.data ++ after ∧ magic.length ≤ before.length ∧
    info = blobMetadata before.length blob

theorem Placed.append (placed : Placed body info blob) (more : List UInt8) :
    Placed (body ++ more) info blob := by
  obtain ⟨before, after, rfl, behind, noted⟩ := placed
  exact ⟨before, after ++ more, by simp, behind, noted⟩

theorem foldl_writeBlob_placed {out : List UInt8 × List BlobMetadata} {written : List Blob}
    (behind : magic.length ≤ out.1.length) (placed : List.Forall₂ (Placed out.1) out.2 written)
    (blobs : List Blob) :
    List.Forall₂ (Placed (blobs.foldl writeBlob out).1) (blobs.foldl writeBlob out).2
      (written ++ blobs) := by
  induction blobs generalizing out written with
  | nil => simpa using placed
  | cons blob blobs ih =>
    have here : Placed (out.1 ++ blob.data) (blobMetadata out.1.length blob) blob :=
      ⟨out.1, [], by simp, behind, rfl⟩
    have longer : magic.length ≤ (writeBlob out blob).1.length := behind.trans (by simp [writeBlob])
    have next := ih longer (rel_append
      (placed.imp fun _ _ stands => stands.append blob.data) (.cons here .nil))
    rwa [append_assoc] at next

theorem writeBlobs_placed (blobs : List Blob) :
    List.Forall₂ (Placed (writeBlobs blobs).1) (writeBlobs blobs).2 blobs :=
  @foldl_writeBlob_placed (magic, []) [] le_rfl .nil blobs

theorem writeBlobs_fst (blobs : List Blob) :
    (writeBlobs blobs).1 = magic ++ blobs.flatMap Blob.data := by
  suffices general : ∀ out : List UInt8 × List BlobMetadata,
      (blobs.foldl writeBlob out).1 = out.1 ++ blobs.flatMap Blob.data from general (magic, [])
  induction blobs with
  | nil => simp
  | cons blob blobs ih =>
    intro out
    rw [foldl_cons, ih, flatMap_cons, ← append_assoc]
    rfl

/-- The index of a file leads to the blob. -/
structure Stands (file : List UInt8) (index : BlobIndex) (blob : Blob) : Prop where
  blobType : index.blobType = blob.blobType
  properties : index.properties = blob.properties
  snapshotId : index.snapshotId = blob.snapshotId
  sequenceNumber : index.sequenceNumber = blob.sequenceNumber
  addressable : index.offset + index.length < 2 ^ 64
  sliced : slice file index.offset (index.offset + index.length) = some blob.data

theorem Stands.readBlob (stands : Stands file index blob) : readBlob file index = .ok blob := by
  unfold Puffin.readBlob
  rw [Nat.mod_eq_of_lt stands.addressable, part_eq_ok_iff.mpr stands.sliced, ok_bind,
    stands.blobType, stands.properties, stands.snapshotId, stands.sequenceNumber]

/-- A blob inside of the body of a file is located. -/
theorem Placed.locate (placed : Placed body info blob) (fits : body.length < 2 ^ 63) (fileLen : Nat)
    (more : List UInt8) :
    ∃ index, locate fileLen body.length info = .ok index ∧ Stands (body ++ more) index blob := by
  obtain ⟨before, after, rfl, behind, rfl⟩ := placed
  rw [length_append, length_append] at fits
  have offset : (UInt64.ofNat before.length).toNat = before.length :=
    UInt64.toNat_ofNat_of_lt' (by unfold UInt64.size; omega)
  have length : (UInt64.ofNat blob.data.length).toNat = blob.data.length :=
    UInt64.toNat_ofNat_of_lt' (by unfold UInt64.size; omega)
  refine ⟨⟨blob.blobType, before.length, blob.data.length, blob.properties, blob.snapshotId,
    blob.sequenceNumber⟩, ?_, rfl, rfl, rfl, rfl, ?_, ?_⟩
  · unfold Puffin.locate blobMetadata
    dsimp only
    rw [offset, length, if_neg]
    simp only [length_append]
    omega
  · dsimp only
    omega
  · rw [append_assoc _ after]
    exact slice_middle before blob.data (after ++ more)

/-! ## Reading a written file -/

section Frame

variable {codec : FooterCodec} {blobs : List Blob} {properties : List (String × String)}

theorem length_frame (body payload : List UInt8) :
    (frame body payload).length = body.length + payload.length + 16 := by
  simp [frame, magic]
  omega

/-- The parts of a file from the footer on, each with its place. -/
theorem frame_parts (body payload : List UInt8) :
    slice (frame body payload) body.length (body.length + 4) = some magic ∧
      slice (frame body payload) (body.length + 4) (body.length + 4 + payload.length) =
        some payload ∧
      Holds (frame body payload) (body.length + payload.length + 4) (putLe 4 payload.length) ∧
      Holds (frame body payload) (body.length + payload.length + 8) (putLe 4 0) ∧
      slice (frame body payload) (body.length + payload.length + 12)
        (body.length + payload.length + 16) = some magic := by
  have marker := slice_middle body magic (payload ++ putLe 4 payload.length ++ putLe 4 0 ++ magic)
  have inner := slice_middle (body ++ magic) payload (putLe 4 payload.length ++ putLe 4 0 ++ magic)
  have size := holds_middle (body ++ magic ++ payload) (putLe 4 payload.length) (putLe 4 0 ++ magic)
  have flags := holds_middle (body ++ magic ++ payload ++ putLe 4 payload.length) (putLe 4 0) magic
  have last := slice_middle (body ++ magic ++ payload ++ putLe 4 payload.length ++ putLe 4 0)
    magic []
  have four : magic.length = 4 := rfl
  simp only [append_nil, length_append, length_putLe, four, append_assoc]
    at marker inner size flags last
  simp only [frame, append_assoc]
  refine ⟨marker, inner, ?_, ?_, ?_⟩
  · convert size using 1
    omega
  · convert flags using 1
    omega
  · convert last using 2 <;> omega

end Frame

/-- What a file needs to be accepted: the three magics, no flags, and a footer that
lies inside of it and can be parsed. -/
structure Framed (codec : FooterCodec) (data : List UInt8) (footerStart : Nat)
    (parsed : FileMetadata) : Prop where
  long : magic.length * 3 + 8 ≤ data.length
  head : slice data 0 4 = some magic
  last : slice data (data.length - 4) data.length = some magic
  flags : readLe 4 data (data.length - 8) = .ok 0
  room : footerStart + 16 ≤ data.length
  length : readLe 4 data (data.length - 12) = .ok (data.length - 16 - footerStart)
  marker : slice data footerStart (footerStart + 4) = some magic
  payload : ∃ payload, slice data (footerStart + 4) (data.length - 12) = some payload ∧
    codec.fromSlice payload = .ok parsed

theorem parseFooter_eq_ok_iff :
    parseFooter codec payload = .ok parsed ↔ codec.fromSlice payload = .ok parsed := by
  unfold parseFooter
  cases codec.fromSlice payload with
  | error cause => simp
  | ok found => simp

/-- A file is accepted exactly when it is framed and all its blobs can be located. -/
theorem readIndex_eq_ok_iff {index : List BlobIndex} :
    readIndex codec data = .ok index ↔ ∃ footerStart parsed,
      Framed codec data footerStart parsed ∧
        parsed.blobs.mapM (locate data.length footerStart) = .ok index := by
  unfold readIndex
  simp only [bind_eq_ok_iff, ensure_eq_ok_iff, part_eq_ok_iff, parseFooter_eq_ok_iff]
  constructor
  · rintro ⟨-, long, -, head, -, rfl, -, last, -, rfl, -, flags, -, rfl, size, length, -, inside, -,
      room, -, marker, -, rfl, payload, sliced, parsed, parses, located⟩
    refine ⟨data.length - 12 - size - 4, parsed, ⟨long, head, last, flags, by omega, ?_, ?_,
      payload, ?_, parses⟩, located⟩
    · rw [length]
      congr 1
      omega
    · rw [Nat.sub_add_cancel room]
      exact marker
    · rw [Nat.sub_add_cancel room]
      exact sliced
  · rintro ⟨footerStart, parsed, framed, located⟩
    obtain ⟨payload, sliced, parses⟩ := framed.payload
    have room := framed.room
    have start : data.length - 12 - (data.length - 16 - footerStart) = footerStart + 4 := by omega
    refine ⟨(), framed.long, magic, framed.head, (), rfl, magic, framed.last, (), rfl, 0,
      framed.flags, (), rfl, _, framed.length, (), by omega, (), by omega, magic, ?_, (), rfl,
      payload, ?_, parsed, parses, ?_⟩
    · rw [start, Nat.add_sub_cancel]
      exact framed.marker
    · rw [start]
      exact sliced
    · rw [start, Nat.add_sub_cancel]
      exact located

/-- What the writer puts around the blobs is accepted. -/
theorem framed_frame (rest : List UInt8) (short : payload.length < 2 ^ 32)
    (parses : codec.fromSlice payload = .ok parsed) :
    Framed codec (frame (magic ++ rest) payload) (magic ++ rest).length parsed := by
  obtain ⟨marker, inner, size, flags, last⟩ := frame_parts (magic ++ rest) payload
  have starts : slice (frame (magic ++ rest) payload) 0 4 = some magic := by
    have first := slice_middle [] magic
      (rest ++ magic ++ payload ++ putLe 4 payload.length ++ putLe 4 0 ++ magic)
    rw [nil_append, length_nil, Nat.zero_add] at first
    simp only [frame, append_assoc] at first ⊢
    exact first
  have length := length_frame (magic ++ rest) payload
  have behind : 4 ≤ (magic ++ rest).length := by simp [magic]
  generalize (magic ++ rest).length = body at marker inner size flags last length behind ⊢
  generalize frame (magic ++ rest) payload = file at marker inner size flags last starts length ⊢
  have four : magic.length = 4 := rfl
  refine ⟨by omega, starts, ?_, ?_, by omega, ?_, marker, payload, ?_, parses⟩
  · rw [length]
    exact last
  · rw [show file.length - 8 = body + payload.length + 8 by omega]
    exact readLe_of_holds (by decide) flags (by decide)
  · rw [show file.length - 12 = body + payload.length + 4 by omega,
      show file.length - 16 - body = payload.length by omega]
    exact readLe_of_holds (by decide) size short
  · rw [show file.length - 12 = body + 4 + payload.length by omega]
    exact inner

/-- The index of a written file leads to its blobs. -/
theorem readIndex_write (restores : codec.Restores (footer blobs properties))
    (written : write codec blobs properties = .ok file) (fits : file.length < 2 ^ 63) :
    ∃ index, readIndex codec file = .ok index ∧ List.Forall₂ (Stands file) index blobs := by
  unfold write at written
  dsimp only at written
  split at written
  · next short =>
      cases written
      have framed := framed_frame (blobs.flatMap Blob.data) short restores
      rw [← writeBlobs_fst] at framed
      have bounded : (writeBlobs blobs).1.length < 2 ^ 63 := by
        rw [length_frame] at fits
        omega
      have located := exists_mapM_of_forall₂ ((writeBlobs_placed blobs).imp
        fun _ _ placed => placed.locate bounded
          (frame (writeBlobs blobs).1 (codec.toVec (footer blobs properties))).length
          (magic ++ codec.toVec (footer blobs properties) ++
            putLe 4 (codec.toVec (footer blobs properties)).length ++ putLe 4 0 ++ magic))
      obtain ⟨index, reads, stand⟩ := located
      refine ⟨index, readIndex_eq_ok_iff.mpr ⟨_, _, framed, reads⟩, ?_⟩
      simpa only [frame, append_assoc] using stand
  · cases written

/-- Short blobs and a short footer make a short file. -/
theorem exists_write_of_short (codec : FooterCodec) (properties : List (String × String))
    (body : (blobs.flatMap Blob.data).length < 2 ^ 32)
    (payload : (codec.toVec (footer blobs properties)).length < 2 ^ 32) :
    ∃ file, write codec blobs properties = .ok file ∧ file.length < 2 ^ 34 := by
  refine ⟨_, if_pos payload, ?_⟩
  rw [length_frame, writeBlobs_fst, length_append]
  have four : magic.length = 4 := rfl
  omega

/-- A blob is no longer than the file it was written to. -/
theorem length_data_le (written : write codec blobs properties = .ok file) (member : blob ∈ blobs) :
    blob.data.length ≤ file.length := by
  unfold write at written
  dsimp only at written
  split at written
  · cases written
    have inBody :=
      (sublist_flatten_of_mem (mem_map_of_mem (f := Blob.data) member)).length_le
    rw [← flatMap_def] at inBody
    rw [length_frame, writeBlobs_fst, length_append]
    omega
  · cases written

theorem read_of_readIndex {index : List BlobIndex} (reads : readIndex codec data = .ok index)
    (stand : List.Forall₂ (Stands data) index blobs) : read codec data = .ok blobs := by
  unfold read
  rw [reads, ok_bind]
  exact mapM_eq_ok_iff.mpr (stand.imp fun _ _ stands => stands.readBlob)

/-! ## Any bytes -/

/-- Where the footer of a file starts by its own account. -/
def footerStart (data : List UInt8) : Nat :=
  data.length - 16 - getLe 4 data (data.length - 12)

/-- A located blob lies between the leading magic and the footer. -/
theorem locate_eq_ok {fileLen magicStart : Nat} (fits : magicStart < 2 ^ 64 - 1)
    (located : locate fileLen magicStart info = .ok index) :
    magic.length ≤ index.offset ∧ index.offset + index.length ≤ magicStart := by
  unfold locate at located
  dsimp only at located
  split at located
  · cases located
  · next inside =>
      cases located
      dsimp only
      omega

/-- Every blob of an accepted file lies between the leading magic and the footer. -/
theorem bounds_of_readIndex (fits : data.length < 2 ^ 63) {index : List BlobIndex}
    (reads : readIndex codec data = .ok index) :
    footerStart data + 16 ≤ data.length ∧ ∀ blob ∈ index,
      magic.length ≤ blob.offset ∧ blob.offset + blob.length ≤ footerStart data := by
  obtain ⟨start, parsed, framed, located⟩ := readIndex_eq_ok_iff.mp reads
  have room := framed.room
  have stated : footerStart data = start := by
    have length := framed.length
    unfold readLe at length
    split at length
    · unfold footerStart
      rw [Except.ok.inj length]
      omega
    · cases length
  rw [stated]
  refine ⟨room, fun blob member => ?_⟩
  obtain ⟨info, -, here⟩ := exists_of_mem_mapM located member
  exact locate_eq_ok (by omega) here

/-- A blob of an accepted file can be copied. -/
theorem exists_readBlob (fits : data.length < 2 ^ 63)
    (inside : index.offset + index.length ≤ data.length) :
    ∃ bytes, slice data index.offset (index.offset + index.length) = some bytes ∧
      readBlob data index = .ok ⟨index.blobType, bytes, index.properties, index.snapshotId,
        index.sequenceNumber⟩ := by
  obtain ⟨bytes, sliced⟩ := exists_slice (Nat.le_add_right index.offset index.length) inside
  refine ⟨bytes, sliced, ?_⟩
  unfold readBlob
  rw [Nat.mod_eq_of_lt (by omega), part_eq_ok_iff.mpr sliced, ok_bind]

theorem locate_ne_panic (fileLen magicStart : Nat) (info : BlobMetadata) :
    locate fileLen magicStart info ≠ .error .panic := by
  unfold locate
  dsimp only
  split <;> simp

theorem parseFooter_ne_panic (codec : FooterCodec) (payload : List UInt8) :
    parseFooter codec payload ≠ .error .panic := by
  unfold parseFooter
  split <;> simp

/-- No bytes make the reader index outside of the file. -/
theorem readIndex_ne_panic (codec : FooterCodec) (data : List UInt8) :
    readIndex codec data ≠ .error .panic := by
  unfold readIndex
  refine bind_ne_panic (ensure_ne_panic _ _) fun _ long => ?_
  have four : magic.length = 4 := rfl
  rw [ensure_eq_ok_iff] at long
  refine bind_ne_panic (part_ne_panic (by omega) (by omega)) fun head _ => ?_
  refine bind_ne_panic (ensure_ne_panic _ _) fun _ _ => ?_
  refine bind_ne_panic (part_ne_panic (by omega) (by omega)) fun tail _ => ?_
  refine bind_ne_panic (ensure_ne_panic _ _) fun _ _ => ?_
  refine bind_ne_panic (readLe_ne_panic (by omega)) fun flags _ => ?_
  refine bind_ne_panic (ensure_ne_panic _ _) fun _ _ => ?_
  refine bind_ne_panic (readLe_ne_panic (by omega)) fun payloadLen _ => ?_
  refine bind_ne_panic (ensure_ne_panic _ _) fun _ _ => ?_
  refine bind_ne_panic (ensure_ne_panic _ _) fun _ _ => ?_
  refine bind_ne_panic (part_ne_panic (by omega) (by omega)) fun marker _ => ?_
  refine bind_ne_panic (ensure_ne_panic _ _) fun _ _ => ?_
  refine bind_ne_panic (part_ne_panic (by omega) (by omega)) fun payload _ => ?_
  refine bind_ne_panic (parseFooter_ne_panic codec payload) fun parsed _ fails => ?_
  obtain ⟨info, -, here⟩ := exists_error_of_mapM fails
  exact locate_ne_panic _ _ info here

/-- No bytes make reading panic. -/
theorem read_ne_panic (codec : FooterCodec) (fits : data.length < 2 ^ 63) :
    read codec data ≠ .error .panic := by
  refine bind_ne_panic (readIndex_ne_panic codec data) fun index reads fails => ?_
  obtain ⟨room, bounds⟩ := bounds_of_readIndex fits reads
  obtain ⟨blob, member, here⟩ := exists_error_of_mapM fails
  have inside := (bounds blob member).2
  obtain ⟨bytes, -, copied⟩ := exists_readBlob fits (by omega : blob.offset + blob.length ≤ _)
  rw [copied] at here
  cases here

/-! ## Round trip and safety -/

/-- Blobs with a short footer are written, and read back in the same order; and in
whatever bytes the reader accepts, every blob lies between the leading magic and the
footer, so that it can be copied. -/
theorem reads_written_blobs_within_bounds (codec : FooterCodec) :
    (∀ (blobs : List Blob) (properties : List (String × String)),
      codec.Restores (footer blobs properties) →
      (codec.toVec (footer blobs properties)).length < 2 ^ 31 →
        ∃ file, write codec blobs properties = .ok file ∧
          (file.length < 2 ^ 63 → read codec file = .ok blobs)) ∧
    ∀ data : List UInt8, data.length < 2 ^ 63 → read codec data ≠ .error .panic ∧
      ∀ index, readIndex codec data = .ok index → ∀ blob ∈ index,
        magic.length ≤ blob.offset ∧ blob.offset + blob.length ≤ footerStart data ∧
          footerStart data + 16 ≤ data.length ∧
          ∃ bytes, slice data blob.offset (blob.offset + blob.length) = some bytes := by
  constructor
  · intro blobs properties restores short
    have written : write codec blobs properties =
        .ok (frame (writeBlobs blobs).1 (codec.toVec (footer blobs properties))) :=
      if_pos (short.trans (by decide))
    refine ⟨_, written, fun fits => ?_⟩
    obtain ⟨index, reads, stand⟩ := readIndex_write restores written fits
    exact read_of_readIndex reads stand
  · intro data fits
    refine ⟨read_ne_panic codec fits, fun index reads blob member => ?_⟩
    obtain ⟨room, bounds⟩ := bounds_of_readIndex fits reads
    obtain ⟨behind, inside⟩ := bounds blob member
    obtain ⟨bytes, sliced, -⟩ :=
      exists_readBlob fits (by omega : blob.offset + blob.length ≤ data.length)
    exact ⟨behind, inside, room, bytes, sliced⟩

/-! ## The footer as text

What `serde_json` prints for a footer, to the byte. -/

def text (s : String) : List UInt8 :=
  s.toUTF8.data.toList

/-- A byte inside of a JSON string. -/
def jsonByte (byte : UInt8) : List UInt8 :=
  match byte.toNat with
  | 0x22 => text "\\\""
  | 0x5c => text "\\\\"
  | 0x08 => text "\\b"
  | 0x09 => text "\\t"
  | 0x0a => text "\\n"
  | 0x0c => text "\\f"
  | 0x0d => text "\\r"
  | n =>
      if n < 0x20 then text s!"\\u00{n / 16}{Nat.digitChar (n % 16)}"
      else [byte]

def jsonString (s : String) : List UInt8 :=
  text "\"" ++ (text s).flatMap jsonByte ++ text "\""

def jsonArray (items : List (List UInt8)) : List UInt8 :=
  text "[" ++ (text ",").intercalate items ++ text "]"

def jsonObject (fields : List (String × List UInt8)) : List UInt8 :=
  text "\x7b" ++ (text ",").intercalate
    (fields.map fun field => jsonString field.1 ++ text ":" ++ field.2) ++ text "\x7d"

/-- The field of the properties, which is left out when there are none. -/
def propertiesField (properties : List (String × String)) : List (String × List UInt8) :=
  if properties = [] then []
  else [("properties", jsonObject (properties.map fun entry => (entry.1, jsonString entry.2)))]

def BlobMetadata.toJson (info : BlobMetadata) : List UInt8 :=
  jsonObject ([
    ("type", jsonString info.blobType),
    ("fields", jsonArray (info.fields.map fun field => text (toString field))),
    ("snapshot-id", text (toString info.snapshotId)),
    ("sequence-number", text (toString info.sequenceNumber)),
    ("offset", text (toString info.offset)),
    ("length", text (toString info.length))] ++
    (info.compressionCodec.map fun name => ("compression-codec", jsonString name)).toList ++
    propertiesField info.properties)

def FileMetadata.toJson (footer : FileMetadata) : List UInt8 :=
  jsonObject (("blobs", jsonArray (footer.blobs.map BlobMetadata.toJson)) ::
    propertiesField footer.properties)

/-- The codec as far as a few footers need it: it prints any footer, and reads the texts
of these. -/
def jsonCodec (footers : List FileMetadata) : FooterCodec where
  toVec := FileMetadata.toJson
  fromSlice payload :=
    match footers.find? fun footer => footer.toJson = payload with
    | none => .error "expected value at line 1 column 1"
    | some footer => .ok footer

/-- Footers whose texts differ are read back. -/
theorem jsonCodec_restores {footers : List FileMetadata} {footer : FileMetadata}
    (member : footer ∈ footers)
    (apart : ∀ other ∈ footers, other.toJson = footer.toJson → other = footer) :
    (jsonCodec footers).Restores footer := by
  unfold FooterCodec.Restores jsonCodec
  dsimp only
  cases found : footers.find? fun other => other.toJson = footer.toJson with
  | none => simpa using find?_eq_none.mp found footer member
  | some other =>
    have same : other.toJson = footer.toJson := by simpa using find?_some found
    rw [apart other (mem_of_find?_eq_some found) same]

/-- Two blobs, the second of them empty, and the text of their footer. -/
theorem reads_written_blobs_within_bounds_pair :
    let blobs : List Blob := [⟨"first", [1, 2, 3], [], 7, 7⟩, ⟨"second", [], [("key", "9")], 7, 7⟩]
    let codec := jsonCodec [footer blobs []]
    codec.toVec (footer blobs []) = text ("\x7b\"blobs\":[\x7b\"type\":\"first\",\"fields\":[]," ++
      "\"snapshot-id\":7,\"sequence-number\":7,\"offset\":4,\"length\":3\x7d," ++
      "\x7b\"type\":\"second\",\"fields\":[],\"snapshot-id\":7,\"sequence-number\":7," ++
      "\"offset\":7,\"length\":0,\"properties\":\x7b\"key\":\"9\"\x7d\x7d]\x7d") ∧
    ∃ file, write codec blobs [] = .ok file ∧ read codec file = .ok blobs ∧
      ∀ index, readIndex codec file = .ok index → ∀ blob ∈ index,
        magic.length ≤ blob.offset ∧ blob.offset + blob.length ≤ footerStart file := by
  intro blobs codec
  refine ⟨by decide +kernel, ?_⟩
  obtain ⟨restored, bounded⟩ := reads_written_blobs_within_bounds codec
  obtain ⟨file, written, reads⟩ := restored blobs []
    (jsonCodec_restores mem_cons_self (by simp)) (by decide +kernel)
  obtain ⟨same, again, short⟩ : ∃ file, write codec blobs [] = .ok file ∧ file.length < 2 ^ 34 :=
    exists_write_of_short codec [] (by decide) (by decide +kernel)
  obtain rfl := Except.ok.inj (again.symm.trans written)
  have fits : same.length < 2 ^ 63 := by omega
  refine ⟨same, written, reads fits, fun index found blob member => ?_⟩
  obtain ⟨behind, inside, -⟩ := (bounded same fits).2 index found blob member
  exact ⟨behind, inside⟩

end Blaze.Puffin

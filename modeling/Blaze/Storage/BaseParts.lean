import Blaze.Storage.FilterAnswers
import Blaze.Storage.MappedBase

/-!
# The parts of an opened base

A base has places for tables, a registry and filters, and each blob of a file fills one
of them; the last blob for a place is the one that stays.  A file whose blobs were
written soundly is opened, its tables hold what the blobs hold, and its filters never
hide a key: every lookup answers as the table alone does.
-/

namespace Blaze

open List Bytes Fallible

variable {blobs : List Blob} {pairs : List (NodeId × NodeId)} {file otherFile : List UInt8}
  {α : Type} {table : Option MappedPairTable} {b : Blob} {scope : ScopeId} {t : MappedPairTable}
  {last : Option Blob}

/-! ## Places -/

/-- A place of a base. -/
inductive Slot where
  | shared
  | overlay (scope : ScopeId)
  | registry
  | sharedMembers
  | overlayMembers (scope : ScopeId)
  | filter (kind : FilterKind)
  deriving DecidableEq

/-- What is opened at a place. -/
inductive Part where
  | pairs (t : MappedPairTable)
  | members (t : MemberTable)
  | registry (t : RegistryTable)
  | filter (f : BlockedFilter)

def BlobKind.slot (scope : ScopeId) : BlobKind → Slot
  | .shared => .shared
  | .overlay => .overlay scope
  | .registry => .registry
  | .sharedMembers => .sharedMembers
  | .overlayMembers => .overlayMembers scope
  | .filter kind => .filter kind

/-- The place that a blob fills. -/
def Blob.slot (b : Blob) : Option Slot :=
  (blobKind b.blobType).map (BlobKind.slot (scopeOf b))

/-- The last blob for a place. -/
def lastBlob (slot : Slot) (blobs : List Blob) : Option Blob :=
  blobs.reverse.find? fun b => b.slot = some slot

theorem lastBlob_concat (slot : Slot) (blobs : List Blob) (b : Blob) :
    lastBlob slot (blobs ++ [b]) = if b.slot = some slot then some b else lastBlob slot blobs := by
  unfold lastBlob
  rw [reverse_append, reverse_singleton, singleton_append, find?_cons]
  split
  · next here => rw [if_pos (of_decide_eq_true here)]
  · next other => rw [if_neg (of_decide_eq_false other)]

theorem mem_of_lastBlob {slot : Slot} (last : lastBlob slot blobs = some b) :
    b ∈ blobs ∧ b.slot = some slot := by
  have fills := find?_some last
  exact ⟨mem_reverse.mp (mem_of_find?_eq_some last), of_decide_eq_true fills⟩

theorem ne_of_lastBlob_eq_none {slot : Slot} (missing : lastBlob slot blobs = none)
    (member : b ∈ blobs) : b.slot ≠ some slot := by
  have fails := find?_eq_none.mp missing b (mem_reverse.mpr member)
  simpa using fails

theorem lastBlob_append (slot : Slot) (blobs others : List Blob) :
    lastBlob slot (blobs ++ others) = (lastBlob slot others).or (lastBlob slot blobs) := by
  rw [lastBlob, reverse_append, find?_append]
  rfl

/-- Blobs for other places do not matter. -/
theorem lastBlob_eq_none {slot : Slot} (other : ∀ b ∈ blobs, b.slot ≠ some slot) :
    lastBlob slot blobs = none := by
  rw [lastBlob, find?_eq_none]
  intro b member
  simpa using other b (mem_reverse.mp member)

namespace MappedBase

def filter (base : MappedBase) : FilterKind → Option BlockedFilter
  | .shared => base.sharedFilter
  | .overlay => base.overlayFilter
  | .sharedMembers => base.sharedMembersFilter
  | .overlayMembers => base.overlayMembersFilter

/-- What a base has at a place. -/
def part (base : MappedBase) : Slot → Option Part
  | .shared => base.shared.map .pairs
  | .overlay scope => base.overlays[scope]?.map .pairs
  | .registry => base.registry.map .registry
  | .sharedMembers => base.sharedMembers.map .members
  | .overlayMembers scope => base.overlayMembers[scope]?.map .members
  | .filter kind => (base.filter kind).map .filter

@[simp]
theorem part_empty (file : List UInt8) (slot : Slot) : (empty file).part slot = none := by
  cases slot with
  | filter kind => cases kind <;> rfl
  | overlay scope => simp [part, empty]
  | overlayMembers scope => simp [part, empty]
  | _ => rfl

section Update

variable (base : MappedBase)

theorem part_setSequence (sequence : Nat) : part { base with sequence } = base.part := by
  funext slot
  cases slot with
  | filter kind => cases kind <;> rfl
  | _ => rfl

theorem part_setShared (t : MappedPairTable) :
    part { base with shared := some t } =
      Function.update base.part .shared (some (.pairs t)) := by
  funext slot
  cases slot with
  | filter kind => cases kind <;> rfl
  | _ => rfl

theorem part_setRegistry (t : RegistryTable) :
    part { base with registry := some t } =
      Function.update base.part .registry (some (.registry t)) := by
  funext slot
  cases slot with
  | filter kind => cases kind <;> rfl
  | _ => rfl

theorem part_setSharedMembers (t : MemberTable) :
    part { base with sharedMembers := some t } =
      Function.update base.part .sharedMembers (some (.members t)) := by
  funext slot
  cases slot with
  | filter kind => cases kind <;> rfl
  | _ => rfl

theorem part_insertOverlay (scope : ScopeId) (t : MappedPairTable) :
    part { base with overlays := base.overlays.insert scope t } =
      Function.update base.part (.overlay scope) (some (.pairs t)) := by
  funext slot
  cases slot with
  | overlay other =>
    by_cases same : scope = other
    · subst same
      simp [part]
    · simp [part, Std.TreeMap.getElem?_insert, same, Function.update_of_ne, Ne.symm same]
  | filter kind => cases kind <;> rfl
  | _ => rfl

theorem part_insertOverlayMembers (scope : ScopeId) (t : MemberTable) :
    part { base with overlayMembers := base.overlayMembers.insert scope t } =
      Function.update base.part (.overlayMembers scope) (some (.members t)) := by
  funext slot
  cases slot with
  | overlayMembers other =>
    by_cases same : scope = other
    · subst same
      simp [part]
    · simp [part, Std.TreeMap.getElem?_insert, same, Function.update_of_ne, Ne.symm same]
  | filter kind => cases kind <;> rfl
  | _ => rfl

theorem part_setFilter (f : BlockedFilter) (kind : FilterKind) :
    (base.setFilter f kind).part =
      Function.update base.part (.filter kind) (some (.filter f)) := by
  funext slot
  cases slot with
  | filter other => cases kind <;> cases other <;> rfl
  | _ => cases kind <;> rfl

end Update

end MappedBase

/-! ## The scope of a blob -/

theorem le_ofDigitChars (digits : List Char) (n : Nat) : n ≤ Nat.ofDigitChars 10 digits n := by
  induction digits generalizing n with
  | nil => exact le_rfl
  | cons c digits ih =>
    rw [Nat.ofDigitChars_cons]
    exact le_trans (by omega) (ih _)

theorem parseDigits_eq {digits : List Char} (all : ∀ c ∈ digits, c.isDigit) {n : Nat}
    (small : Nat.ofDigitChars 10 digits n < 2 ^ 32) :
    parseDigits digits n = .ok (Nat.ofDigitChars 10 digits n) := by
  induction digits generalizing n with
  | nil => rfl
  | cons c digits ih =>
    rw [Nat.ofDigitChars_cons] at small ⊢
    rw [parseDigits, if_pos (all c mem_cons_self)]
    dsimp only
    rw [if_pos ((le_ofDigitChars digits _).trans_lt small)]
    exact ih (fun d member => all d (mem_cons_of_mem _ member)) small

/-- The digits of a scope are parsed back. -/
theorem parseScope_repr (small : scope < 2 ^ 32) : parseScope (Nat.repr scope) = .ok scope := by
  have all : ∀ c ∈ Nat.toDigits 10 scope, c.isDigit := fun c member =>
    Nat.isDigit_of_mem_toDigits (by decide) (by decide) member
  have value : Nat.ofDigitChars 10 (Nat.toDigits 10 scope) 0 = scope :=
    Nat.ofDigitChars_toDigits (by decide) (by decide)
  have parsed := parseDigits_eq all (value.symm ▸ small)
  rw [value] at parsed
  unfold parseScope
  rw [Nat.toList_repr]
  split
  · next empty => exact absurd empty Nat.toDigits_ne_nil
  · next c cs signed =>
      have digit := all '+' (signed ▸ mem_cons_self)
      exact absurd digit (by decide)
  · exact parsed

theorem blobScope_scopeProperties (small : scope < 2 ^ 32) (name : String) :
    blobScope name (scopeProperties scope) = .ok scope := by
  simp only [blobScope, scopeProperties, lookup_cons, beq_self_eq_true]
  exact parseScope_repr small

/-! ## What blobs hold -/

namespace Blob

/-- The blob is a table of pairs of ids. -/
structure Tabulates (b : Blob) (pairs : List (NodeId × NodeId)) : Prop where
  data : b.data = tableBytes 8 pairs
  keys : ∀ pair ∈ pairs, pair.1 < 2 ^ 64
  values : ∀ pair ∈ pairs, pair.2 < 2 ^ 64

/-- Wherever the blob stands in a mapping, it is opened as a member index of the pairs. -/
def Indexes (b : Blob) (pairs : List (NodeId × NodeId)) : Prop :=
  ∀ (file : List UInt8) (start stop : Nat), file.length < 2 ^ 64 →
    slice file start stop = some b.data →
      ∃ t, MemberTable.parse b.blobType file start stop = .ok (some t) ∧ t.Answers file pairs

/-- Wherever the blob stands in a mapping, it is opened as a registry. -/
def Registers (b : Blob) : Prop :=
  ∀ (file : List UInt8) (start stop : Nat), file.length < 2 ^ 64 →
    slice file start stop = some b.data →
      ∃ t, RegistryTable.parse b.blobType file start stop = .ok (some t)

end Blob

namespace FilterKind

/-- The place of a table that a filter of the kind guards. -/
def tableSlot (scope : ScopeId) : FilterKind → Slot
  | .shared => .shared
  | .overlay => .overlay scope
  | .sharedMembers => .sharedMembers
  | .overlayMembers => .overlayMembers scope

/-- What a filter of the kind is asked about a node. -/
def key (scope : ScopeId) (node : NodeId) : FilterKind → UInt64
  | .shared => UInt64.ofNat node
  | .overlay => overlayKey scope (UInt64.ofNat node)
  | .sharedMembers => UInt64.ofNat node
  | .overlayMembers => overlayKey scope (UInt64.ofNat node)

/-- A blob holds the pairs, as a table that a filter of the kind guards. -/
def Lists (b : Blob) (pairs : List (NodeId × NodeId)) : FilterKind → Prop
  | .shared => b.Tabulates pairs
  | .overlay => b.Tabulates pairs
  | .sharedMembers => b.Indexes pairs
  | .overlayMembers => b.Indexes pairs

end FilterKind

/-- A filter of a kind is among the blobs. -/
def Filters (blobs : List Blob) (kind : FilterKind) (filter : BlockedFilter) : Prop :=
  ∃ b ∈ blobs, b.slot = some (.filter kind) ∧ BlockedFilter.decode b.data = .ok filter

/-- Blobs that a base can be opened from: scopes are labelled, tables, registries and
filters can be read, every filter answers and marks the keys of the tables it guards, and
there is a registry unless no overlay has a pair. -/
structure SoundBlobs (blobs : List Blob) : Prop where
  labelled : ∀ b ∈ blobs, ∀ scope,
    b.slot = some (.overlay scope) ∨ b.slot = some (.overlayMembers scope) →
      b.properties = scopeProperties scope ∧ scope < 2 ^ 32
  tables : ∀ b ∈ blobs, ∀ (kind : FilterKind) (scope : ScopeId),
    b.slot = some (kind.tableSlot scope) → ∃ pairs, kind.Lists b pairs ∧
      ∀ filter, Filters blobs kind filter → ∀ pair ∈ pairs, filter.Marks (kind.key scope pair.1)
  registers : ∀ b ∈ blobs, b.slot = some .registry → b.Registers
  filters : ∀ b ∈ blobs, ∀ kind, b.slot = some (.filter kind) →
    ∃ filter, BlockedFilter.decode b.data = .ok filter ∧ 0 < filter.blocks.length
  fallback : lastBlob .registry blobs = none →
    ∀ b ∈ blobs, ∀ scope, b.slot = some (.overlay scope) → b.Tabulates []

/-- The pairs behind a filter, all of them marked. -/
theorem SoundBlobs.exists_marked (sound : SoundBlobs blobs) (kind : FilterKind) (scope : ScopeId) :
    ∃ pairs, (∀ b ∈ lastBlob (kind.tableSlot scope) blobs, kind.Lists b pairs) ∧
      ∀ filter, Filters blobs kind filter → ∀ pair ∈ pairs,
        filter.Marks (kind.key scope pair.1) := by
  cases last : lastBlob (kind.tableSlot scope) blobs with
  | none => exact ⟨[], by simp, by simp⟩
  | some b =>
    obtain ⟨inBlobs, placed⟩ := mem_of_lastBlob last
    obtain ⟨pairs, lists, marked⟩ := sound.tables b inBlobs kind scope placed
    exact ⟨pairs, by rintro _ ⟨⟩; exact lists, marked⟩

/-! ## Loading -/

/-- A part was opened from a blob; a table of pairs has the index that is given for its
pairs. -/
def Part.Opens (indexOf : List (NodeId × NodeId) → Option SparseIndex) (file : List UInt8)
    (b : Blob) : Part → Prop
  | .pairs t => ∀ pairs, b.Tabulates pairs → t.Stores file pairs ∧ t.index = indexOf pairs
  | .members t => ∀ pairs, b.Indexes pairs → t.Answers file pairs
  | .registry _ => True
  | .filter f => BlockedFilter.decode b.data = .ok f

/-- The index of a table that has just been parsed. -/
def unindexed (_ : List (NodeId × NodeId)) : Option SparseIndex :=
  none

/-- Every place of the base has what the last blob for it holds. -/
structure MappedBase.Loaded (base : MappedBase)
    (indexOf : List (NodeId × NodeId) → Option SparseIndex) (file : List UInt8)
    (blobs : List Blob) : Prop where
  mapping : base.file = file
  parts : ∀ slot, Option.Rel (fun b part => part.Opens indexOf file b) (lastBlob slot blobs)
    (base.part slot)

section Load

variable {file : List UInt8} {index : Puffin.BlobIndex} {b : Blob}

/-- A table of pairs is opened where its blob stands. -/
theorem exists_parse_pairs (stands : Puffin.Stands file index b) (mapped : file.length < 2 ^ 64)
    (tabulates : b.Tabulates pairs) :
    ∃ t, MappedPairTable.parse file index.offset (index.offset + index.length) = .ok t ∧
      (Part.pairs t).Opens unindexed file b := by
  have sliced := stands.sliced
  have parsed := fun other (same : b.Tabulates other) =>
    MappedPairTable.parse_eq (same.data ▸ sliced) mapped
  refine ⟨_, parsed pairs tabulates, fun other same => ?_⟩
  have count := Except.ok.inj ((parsed pairs tabulates).symm.trans (parsed other same))
  rw [count]
  exact ⟨MappedPairTable.stores_of_slice (same.data ▸ sliced) mapped same.keys same.values, rfl⟩

theorem exists_parse_members (stands : Puffin.Stands file index b) (mapped : file.length < 2 ^ 64)
    (indexes : b.Indexes pairs) :
    ∃ t, MemberTable.parse b.blobType file index.offset (index.offset + index.length) =
        .ok (some t) ∧
      (Part.members t).Opens unindexed file b := by
  obtain ⟨t, parsed, -⟩ := indexes file _ _ mapped stands.sliced
  refine ⟨t, parsed, fun other same => ?_⟩
  obtain ⟨found, again, answers⟩ := same file _ _ mapped stands.sliced
  rw [parsed] at again
  cases again
  exact answers

end Load

namespace MappedBase

open Puffin (BlobIndex Stands)

variable {base : MappedBase} {index : BlobIndex} {b : Blob}

/-- Loading a blob by its kind fills its place. -/
theorem exists_loadKind (sound : SoundBlobs blobs) (member : b ∈ blobs)
    (stands : Stands base.file index b) (mapped : base.file.length < 2 ^ 64) {kind : BlobKind}
    (isKind : b.slot = some (kind.slot (scopeOf b))) :
    ∃ loaded part, base.loadKind index index.offset (index.offset + index.length) kind =
        .ok loaded ∧ loaded.file = base.file ∧ part.Opens unindexed base.file b ∧
      loaded.part = Function.update base.part (kind.slot (scopeOf b)) (some part) := by
  cases kind with
  | shared =>
    obtain ⟨pairs, lists, -⟩ := sound.tables b member .shared 0 isKind
    obtain ⟨t, parsed, opens⟩ := exists_parse_pairs stands mapped lists
    refine ⟨{ base with shared := some t }, _, ?_, rfl, opens, part_setShared base t⟩
    rw [loadKind, parsed, ok_bind]
  | overlay =>
    obtain ⟨labelled, small⟩ := sound.labelled b member _ (Or.inl isKind)
    obtain ⟨pairs, lists, -⟩ := sound.tables b member .overlay _ isKind
    obtain ⟨t, parsed, opens⟩ := exists_parse_pairs stands mapped lists
    refine ⟨{ base with overlays := base.overlays.insert (scopeOf b) t }, _, ?_, rfl, opens,
      part_insertOverlay base _ t⟩
    rw [loadKind, stands.properties, labelled, blobScope_scopeProperties small, ok_bind, parsed,
      ok_bind]
  | registry =>
    obtain ⟨t, parsed⟩ := sound.registers b member isKind _ _ _ mapped stands.sliced
    refine ⟨{ base with registry := some t }, .registry t, ?_, rfl, trivial,
      part_setRegistry base t⟩
    rw [loadKind, stands.blobType, parsed, ok_bind]
  | sharedMembers =>
    obtain ⟨pairs, lists, -⟩ := sound.tables b member .sharedMembers 0 isKind
    obtain ⟨t, parsed, opens⟩ := exists_parse_members stands mapped lists
    refine ⟨{ base with sharedMembers := some t }, _, ?_, rfl, opens, part_setSharedMembers base t⟩
    rw [loadKind, stands.blobType, parsed, ok_bind]
  | overlayMembers =>
    obtain ⟨labelled, small⟩ := sound.labelled b member _ (Or.inr isKind)
    obtain ⟨pairs, lists, -⟩ := sound.tables b member .overlayMembers _ isKind
    obtain ⟨t, parsed, opens⟩ := exists_parse_members stands mapped lists
    refine ⟨{ base with overlayMembers := base.overlayMembers.insert (scopeOf b) t }, _, ?_, rfl,
      opens, part_insertOverlayMembers base _ t⟩
    rw [loadKind, stands.properties, labelled, blobScope_scopeProperties small, ok_bind,
      stands.blobType, parsed, ok_bind]
  | filter kind =>
    obtain ⟨filter, decoded, -⟩ := sound.filters b member kind isKind
    refine ⟨base.setFilter filter kind, .filter filter, ?_, ?_, decoded,
      part_setFilter base filter kind⟩
    · rw [loadKind, part_eq_ok_iff.mpr stands.sliced, ok_bind, decoded, ok_bind]
    · cases kind <;> rfl

/-- Loading a blob fills its place, if it has one. -/
theorem exists_loadBlob (sound : SoundBlobs blobs) (member : b ∈ blobs)
    (stands : Stands base.file index b) (mapped : base.file.length < 2 ^ 64) :
    ∃ loaded, base.loadBlob index = .ok loaded ∧ loaded.file = base.file ∧
      (b.slot = none ∧ loaded.part = base.part ∨
        ∃ slot part, b.slot = some slot ∧ part.Opens unindexed base.file b ∧
          loaded.part = Function.update base.part slot (some part)) := by
  have stop := Nat.mod_eq_of_lt stands.addressable
  unfold loadBlob
  dsimp only
  rw [stands.blobType, stop]
  generalize max base.sequence index.sequenceNumber.toInt.toNat = sequence
  have parts := part_setSequence base sequence
  cases isKind : blobKind b.blobType with
  | none =>
    have slot : b.slot = none := by rw [Blob.slot, isKind, Option.map_none]
    exact ⟨_, rfl, rfl, Or.inl ⟨slot, parts⟩⟩
  | some kind =>
    have slot : b.slot = some (kind.slot (scopeOf b)) := by
      rw [Blob.slot, isKind, Option.map_some]
    have here : Stands ({ base with sequence } : MappedBase).file index b := stands
    obtain ⟨loaded, part, loads, same, opens, update⟩ :=
      exists_loadKind sound member here mapped slot
    rw [parts] at update
    exact ⟨loaded, loads, same, Or.inr ⟨_, part, slot, opens, update⟩⟩

theorem loaded_empty (file : List UInt8) (indexOf : List (NodeId × NodeId) → Option SparseIndex) :
    (empty file).Loaded indexOf file [] := by
  constructor
  · rfl
  · intro slot
    rw [part_empty]
    exact .none

/-- A run of blobs, loaded one after the other. -/
theorem exists_foldlM_loadBlob (mapped : file.length < 2 ^ 64) {index : List BlobIndex}
    {done : List Blob} (sound : SoundBlobs (done ++ blobs))
    (stand : List.Forall₂ (Stands file) index blobs) (loaded : base.Loaded unindexed file done) :
    ∃ last, index.foldlM loadBlob base = .ok last ∧
      last.Loaded unindexed file (done ++ blobs) := by
  induction stand generalizing base done with
  | nil =>
    rw [append_nil]
    exact ⟨base, rfl, loaded⟩
  | cons stands rest ih =>
    rename_i first b index blobs
    obtain ⟨source, parts⟩ := loaded
    subst source
    obtain ⟨next, loads, same, filled⟩ := exists_loadBlob sound (by simp) stands mapped
    have nextLoaded : next.Loaded unindexed base.file (done ++ [b]) := by
      refine ⟨same, fun slot => ?_⟩
      rw [lastBlob_concat]
      rcases filled with ⟨unplaced, kept⟩ | ⟨place, part, placed, opens, update⟩
      · rw [unplaced, if_neg (by simp), kept]
        exact parts slot
      · rw [placed, update]
        by_cases here : place = slot
        · subst here
          rw [if_pos rfl, Function.update_self]
          exact .some opens
        · rw [if_neg (by simpa using here), Function.update_of_ne (Ne.symm here)]
          exact parts slot
    rw [append_cons] at sound ⊢
    obtain ⟨last, folds, lastLoaded⟩ := ih sound nextLoaded
    refine ⟨last, ?_, lastLoaded⟩
    rw [foldlM_cons, loads, ok_bind]
    exact folds

/-! ## Fallback registry -/

variable {indexOf : List (NodeId × NodeId) → Option SparseIndex} {file : List UInt8}
  {blobs : List Blob}

theorem Loaded.exists_lastBlob (loaded : base.Loaded indexOf file blobs) {slot : Slot}
    {found : Part} (here : base.part slot = some found) :
    ∃ b, lastBlob slot blobs = some b ∧ found.Opens indexOf file b := by
  have opened := loaded.parts slot
  rw [here] at opened
  generalize lastBlob slot blobs = last at opened ⊢
  cases opened with
  | some opens => exact ⟨_, rfl, opens⟩

theorem Loaded.lastBlob_eq_none (loaded : base.Loaded indexOf file blobs) {slot : Slot}
    (missing : base.part slot = none) : lastBlob slot blobs = none := by
  have opened := loaded.parts slot
  rw [missing] at opened
  generalize lastBlob slot blobs = last at opened ⊢
  cases opened
  rfl

theorem foldlM_of_fixed {β : Type} {step : β → α → Except Fault β} {state : β} {items : List α}
    (fixed : ∀ item ∈ items, step state item = .ok state) :
    items.foldlM step state = .ok state := by
  induction items with
  | nil => rfl
  | cons item items ih =>
    rw [foldlM_cons, fixed item mem_cons_self, ok_bind]
    exact ih fun other member => fixed other (mem_cons_of_mem _ member)

theorem part_setFallback (base : MappedBase)
    (fallbackRegistry : Option (Std.TreeMap NodeId (List ScopeId))) :
    part { base with fallbackRegistry } = base.part := by
  funext slot
  cases slot with
  | filter kind => cases kind <;> rfl
  | _ => rfl

/-- A base without a registry has no pairs to make one from. -/
theorem Loaded.exists_withFallback (loaded : base.Loaded unindexed file blobs)
    (sound : SoundBlobs blobs) :
    ∃ next, base.withFallback = .ok next ∧ next.Loaded unindexed file blobs := by
  unfold withFallback
  split
  · next missing =>
      have unregistered : lastBlob .registry blobs = none := by
        apply loaded.lastBlob_eq_none
        rw [part, Option.isNone_iff_eq_none.mp missing.1, Option.map_none]
      have scanned : base.buildFallbackRegistry = .ok ∅ := by
        refine foldlM_of_fixed fun overlay member => ?_
        have stored := Std.TreeMap.mem_toList_iff_getElem?_eq_some.mp member
        have here : base.part (.overlay overlay.1) = some (.pairs overlay.2) := by
          rw [part, stored, Option.map_some]
        obtain ⟨b, last, opens⟩ := loaded.exists_lastBlob here
        obtain ⟨inBlobs, isOverlay⟩ := mem_of_lastBlob last
        have empty := sound.fallback unregistered b inBlobs _ isOverlay
        rw [(opens [] empty).1.count]
        rfl
      rw [scanned, ok_bind]
      refine ⟨_, rfl, loaded.mapping, fun slot => ?_⟩
      rw [part_setFallback]
      exact loaded.parts slot
  · exact ⟨base, rfl, loaded⟩

end MappedBase

/-! ## Sparse indexes -/

/-- What a table stores is determined by the table. -/
theorem MappedPairTable.Stores.unique {others : List (NodeId × NodeId)}
    (stores : t.Stores file pairs) (again : t.Stores file others) : pairs = others := by
  have length : pairs.length = others.length := stores.count.symm.trans again.count
  refine ext_getElem length fun i inside inside' => ?_
  obtain ⟨key, value⟩ := stores.reads (getElem?_eq_getElem inside)
  obtain ⟨key', value'⟩ := again.reads (getElem?_eq_getElem inside')
  rw [key] at key'
  rw [value] at value'
  exact Prod.ext (Except.ok.inj key') (Except.ok.inj value')

/-- A table keeps what it stores and gets the index of its pairs. -/
def IndexedIn (file : List UInt8) (t built : MappedPairTable) : Prop :=
  ∀ pairs, t.Stores file pairs → built.Stores file pairs ∧ built.index = sparseIndexOf pairs

/-- The pass over a file keeps what its tables store, and gives each table the index of
its pairs. -/
theorem exists_buildIndexes {tables : List MappedPairTable}
    (stored : ∀ t ∈ tables, ∃ pairs, t.Stores file pairs ∧ t.index = none) :
    ∃ built, buildIndexes file tables = .ok built ∧
      List.Forall₂ (IndexedIn file) tables built := by
  choose! pairsOf holds using stored
  have stores : List.Forall₂ (fun t pairs => MappedPairTable.Stores t file pairs ∧ t.index = none)
      tables (tables.map pairsOf) :=
    forall₂_map_right_iff.mpr (forall₂_same.mpr holds)
  obtain ⟨built, builds, indexed⟩ := buildIndexes_eq stores
  refine ⟨built, builds, ?_⟩
  have paired := forall₂_map_right_iff.mp indexed
  refine forall₂_iff_get.mpr ⟨paired.length_eq.symm, fun i inside inside' pairs same => ?_⟩
  have own := (holds _ (get_mem tables ⟨i, inside⟩)).1
  rw [← own.unique same]
  exact paired.get inside' inside

namespace MappedBase

variable {base : MappedBase} {file : List UInt8} {blobs : List Blob}

/-- A table of pairs of the base stores what its blob tabulates. -/
theorem Loaded.exists_stores (loaded : base.Loaded unindexed file blobs) {slot : Slot}
    (tabulated : ∀ b ∈ blobs, b.slot = some slot → ∃ pairs, b.Tabulates pairs)
    (here : base.part slot = some (.pairs t)) : ∃ pairs, t.Stores file pairs ∧ t.index = none := by
  obtain ⟨b, last, opens⟩ := loaded.exists_lastBlob here
  obtain ⟨inBlobs, placed⟩ := mem_of_lastBlob last
  obtain ⟨pairs, tabulates⟩ := tabulated b inBlobs placed
  exact ⟨pairs, opens pairs tabulates⟩

/-- A table with its index was opened from the same blob as the one without. -/
theorem opened_of_indexed {built : Option MappedPairTable}
    (opened : Option.Rel (fun b part => Part.Opens unindexed file b part) last
      (table.map .pairs))
    (indexed : Option.Rel (IndexedIn file) table built) :
    Option.Rel (fun b part => Part.Opens sparseIndexOf file b part) last (built.map .pairs) := by
  cases indexed with
  | none =>
    cases opened
    exact .none
  | some keeps =>
    cases opened with
    | some opens =>
      exact .some fun pairs tabulates => keeps pairs (opens pairs tabulates).1

/-- Only a table of pairs has an index. -/
theorem opened_of_other {found : Option Part}
    (opened : Option.Rel (fun b part => Part.Opens unindexed file b part) last found)
    (other : ∀ t, found ≠ some (.pairs t)) :
    Option.Rel (fun b part => Part.Opens sparseIndexOf file b part) last found := by
  cases opened with
  | none => exact .none
  | @some b part opens =>
    cases part with
    | pairs t => exact absurd rfl (other t)
    | _ => exact .some opens

theorem rel_head?_of_forall₂ {β : Type} {R : α → β → Prop} {first : Option α} {items : List β}
    (related : List.Forall₂ R first.toList items) : Option.Rel R first items.head? := by
  cases first with
  | none =>
    cases related
    exact .none
  | some item =>
    cases related with
    | cons here rest =>
      exact .some here

/-- The indexes are built, and nothing else changes. -/
theorem Loaded.exists_withIndexes (loaded : base.Loaded unindexed file blobs)
    (sound : SoundBlobs blobs) :
    ∃ next, base.withIndexes = .ok next ∧ next.Loaded sparseIndexOf file blobs := by
  have stored : ∀ t ∈ base.shared.toList ++ base.overlays.toList.map Prod.snd,
      ∃ pairs, t.Stores file pairs ∧ t.index = none := by
    intro t member
    rcases mem_append.mp member with isShared | isOverlay
    · have here : base.part .shared = some (.pairs t) := by
        rw [part, Option.mem_toList.mp isShared, Option.map_some]
      refine loaded.exists_stores (fun b inBlobs placed => ?_) here
      obtain ⟨pairs, lists, -⟩ := sound.tables b inBlobs .shared 0 placed
      exact ⟨pairs, lists⟩
    · obtain ⟨overlay, listed, rfl⟩ := mem_map.mp isOverlay
      have here : base.part (.overlay overlay.1) = some (.pairs overlay.2) := by
        rw [part, Std.TreeMap.mem_toList_iff_getElem?_eq_some.mp listed, Option.map_some]
      refine loaded.exists_stores (fun b inBlobs placed => ?_) here
      obtain ⟨pairs, lists, -⟩ := sound.tables b inBlobs .overlay overlay.1 placed
      exact ⟨pairs, lists⟩
  obtain ⟨built, builds, indexed⟩ := exists_buildIndexes stored
  have shared := (forall₂_take_append _ _ _ indexed.flip).flip
  have overlays := (forall₂_drop_append _ _ _ indexed.flip).flip
  unfold withIndexes
  dsimp only
  rw [loaded.mapping, builds, ok_bind]
  refine ⟨_, rfl, rfl, fun slot => ?_⟩
  have opened := loaded.parts slot
  cases slot with
  | shared => exact opened_of_indexed opened (rel_head?_of_forall₂ shared)
  | overlay scope =>
    exact opened_of_indexed opened (KeyedMap.rel_ofList_zip overlays scope)
  | filter kind => cases kind <;> exact opened_of_other opened (by simp [part])
  | _ => exact opened_of_other opened (by simp [part])

/-! ## Opening a file -/

/-- A file of sound blobs is opened, and every place has what its blob holds. -/
theorem exists_build {codec : Puffin.FooterCodec} {properties : List (String × String)}
    (sound : SoundBlobs blobs) (restores : codec.Restores (Puffin.footer blobs properties))
    (written : Puffin.write codec blobs properties = .ok file) (fits : file.length < 2 ^ 63) :
    ∃ base, build codec file = .ok base ∧ base.Loaded sparseIndexOf file blobs := by
  obtain ⟨index, reads, stand⟩ := Puffin.readIndex_write restores written fits
  obtain ⟨parsed, folds, loaded⟩ := exists_foldlM_loadBlob (fits.trans (by decide))
    (by rwa [nil_append]) stand (loaded_empty file unindexed)
  rw [nil_append] at loaded
  obtain ⟨next, falls, loaded⟩ := loaded.exists_withFallback sound
  obtain ⟨last, builds, loaded⟩ := loaded.exists_withIndexes sound
  refine ⟨last, ?_, loaded⟩
  unfold build
  rw [reads, ok_bind, folds, ok_bind, falls, ok_bind]
  exact builds

/-! ## Lookups through filters -/

/-- A filter changes no answer: a key that it does not have is not in the table. -/
theorem Loaded.guarded_eq {indexOf : List (NodeId × NodeId) → Option SparseIndex}
    (loaded : base.Loaded indexOf file blobs) (sound : SoundBlobs blobs) (kind : FilterKind)
    (scope : ScopeId) (node : NodeId) {missing : α} {search : Except Fault α}
    (absent : ∀ pairs, (∀ b ∈ lastBlob (kind.tableSlot scope) blobs, kind.Lists b pairs) →
      node ∉ pairs.map Prod.fst → search = .ok missing) :
    guarded (base.filter kind) (kind.key scope node) missing search = search := by
  cases filtered : base.filter kind with
  | none => rfl
  | some filter =>
    have here : base.part (.filter kind) = some (.filter filter) := by
      rw [part, filtered, Option.map_some]
    obtain ⟨b, last, decoded⟩ := loaded.exists_lastBlob here
    obtain ⟨inBlobs, placed⟩ := mem_of_lastBlob last
    obtain ⟨found, again, positive⟩ := sound.filters b inBlobs kind placed
    obtain rfl : filter = found := Except.ok.inj (decoded.symm.trans again)
    obtain ⟨answer, probed⟩ := BlockedFilter.exists_mayContain positive (kind.key scope node)
    change (do if ← filter.mayContain (kind.key scope node) then search else .ok missing) = search
    rw [probed, ok_bind]
    cases answer with
    | true => rfl
    | false =>
      obtain ⟨pairs, lists, marked⟩ := sound.exists_marked kind scope
      refine (absent pairs lists fun member => ?_).symm
      obtain ⟨pair, inPairs, rfl⟩ := mem_map.mp member
      have marks := marked filter ⟨b, inBlobs, placed, again⟩ pair inPairs
      rw [BlockedFilter.mayContain_of_marks marks] at probed
      cases probed

/-- Search a table of pairs, if there is one. -/
def lookupIn (table : Option MappedPairTable) (file : List UInt8) (node : NodeId) :
    Except Fault (Option NodeId) :=
  match table with
  | none => .ok none
  | some t => t.lookup file node

/-- Search a member index, if there is one. -/
def childrenIn (table : Option MemberTable) (file : List UInt8) (parent : NodeId) (limit : Nat)
    (out : List NodeId) : Except Fault (List NodeId) :=
  match table with
  | none => .ok out
  | some t => t.childrenOf file parent limit out

section Search

variable {last : Option Blob} {pairs : List (NodeId × NodeId)}

theorem lookupIn_absent
    (opened : Option.Rel (fun b part => Part.Opens sparseIndexOf file b part) last
      (table.map .pairs))
    (lists : ∀ b ∈ last, b.Tabulates pairs) {node : NodeId} (absent : node ∉ pairs.map Prod.fst) :
    lookupIn table file node = .ok none := by
  cases table with
  | none => rfl
  | some t =>
    cases opened with
    | some opens => exact (opens pairs (lists _ rfl)).1.lookup_absent absent

/-- Two tables that were opened from the same blob have the same answers. -/
theorem lookupIn_congr {other : Option MappedPairTable}
    (opened : Option.Rel (fun b part => Part.Opens sparseIndexOf file b part) last
      (table.map .pairs))
    (otherOpened : Option.Rel (fun b part => Part.Opens sparseIndexOf otherFile b part) last
      (other.map .pairs))
    (lists : ∀ b ∈ last, b.Tabulates pairs) (node : NodeId) :
    lookupIn table file node = lookupIn other otherFile node := by
  cases table with
  | none =>
    cases opened
    cases other with
    | none => rfl
    | some t => cases otherOpened
  | some t =>
    cases opened with
    | some opens =>
      cases other with
      | none => cases otherOpened
      | some t' =>
        cases otherOpened with
        | some otherOpens =>
          obtain ⟨stores, index⟩ := opens pairs (lists _ rfl)
          obtain ⟨stores', index'⟩ := otherOpens pairs (lists _ rfl)
          exact stores.lookup_congr stores' (index.trans index'.symm) node

/-- The children of a parent, in order. -/
theorem childrenIn_eq {table : Option MemberTable}
    (opened : Option.Rel (fun b part => Part.Opens sparseIndexOf file b part) last
      (table.map .members))
    (lists : ∀ b ∈ last, b.Indexes pairs) (parent : NodeId) (limit : Nat) (out : List NodeId) :
    childrenIn table file parent limit out = .ok (out ++
      if last.isSome then
        ((pairs.filter fun pair => pair.1 = parent).map Prod.snd).take limit
      else
        []) := by
  cases table with
  | none =>
    cases opened
    rw [Option.isSome_none, if_neg Bool.false_ne_true, append_nil]
    rfl
  | some t =>
    cases opened with
    | some opens => exact (opens pairs (lists _ rfl)).1 parent limit out

theorem childrenIn_absent {table : Option MemberTable}
    (opened : Option.Rel (fun b part => Part.Opens sparseIndexOf file b part) last
      (table.map .members))
    (lists : ∀ b ∈ last, b.Indexes pairs) {parent : NodeId}
    (absent : parent ∉ pairs.map Prod.fst) (limit : Nat) (out : List NodeId) :
    childrenIn table file parent limit out = .ok out := by
  have none : pairs.filter (fun pair => pair.1 = parent) = [] := by
    rw [filter_eq_nil_iff]
    intro pair member same
    exact absent (mem_map.mpr ⟨pair, member, of_decide_eq_true same⟩)
  rw [childrenIn_eq opened lists, none]
  simp

end Search

section Answers

variable (loaded : base.Loaded sparseIndexOf file blobs) (sound : SoundBlobs blobs)

include loaded sound

theorem Loaded.sharedParent_eq (node : NodeId) :
    base.sharedParent node = lookupIn base.shared file node := by
  unfold sharedParent
  rw [loaded.mapping]
  exact loaded.guarded_eq sound .shared 0 node fun pairs lists absent =>
    lookupIn_absent (loaded.parts .shared) lists absent

theorem Loaded.overlayParent_eq (scope : ScopeId) (node : NodeId) :
    base.overlayParent scope node = lookupIn base.overlays[scope]? file node := by
  unfold overlayParent
  rw [loaded.mapping]
  exact loaded.guarded_eq sound .overlay scope node fun pairs lists absent =>
    lookupIn_absent (loaded.parts (.overlay scope)) lists absent

theorem Loaded.sharedChildren_eq (parent : NodeId) (limit : Nat) (out : List NodeId) :
    base.sharedChildren parent limit out = childrenIn base.sharedMembers file parent limit out := by
  unfold sharedChildren
  rw [loaded.mapping]
  exact loaded.guarded_eq sound .sharedMembers 0 parent fun pairs lists absent =>
    childrenIn_absent (loaded.parts .sharedMembers) lists absent limit out

theorem Loaded.overlayChildren_eq (scope : ScopeId) (parent : NodeId) (limit : Nat)
    (out : List NodeId) :
    base.overlayChildren scope parent limit out =
      childrenIn base.overlayMembers[scope]? file parent limit out := by
  unfold overlayChildren
  rw [loaded.mapping]
  exact loaded.guarded_eq sound .overlayMembers scope parent fun pairs lists absent =>
    childrenIn_absent (loaded.parts (.overlayMembers scope)) lists absent limit out

end Answers

/-- The four lookups of two bases agree. -/
structure Agrees (base other : MappedBase) : Prop where
  sharedParent : ∀ node, base.sharedParent node = other.sharedParent node
  overlayParent : ∀ scope node, base.overlayParent scope node = other.overlayParent scope node
  sharedChildren : ∀ parent limit out,
    base.sharedChildren parent limit out = other.sharedChildren parent limit out
  overlayChildren : ∀ scope parent limit out,
    base.overlayChildren scope parent limit out = other.overlayChildren scope parent limit out

/-- Two files whose tables come from the same blobs have the same answers, whatever
filters they have. -/
theorem Loaded.agrees {other : MappedBase} {others : List Blob}
    (loaded : base.Loaded sparseIndexOf file blobs) (sound : SoundBlobs blobs)
    (otherLoaded : other.Loaded sparseIndexOf otherFile others) (otherSound : SoundBlobs others)
    (same : ∀ (kind : FilterKind) (scope : ScopeId),
      lastBlob (kind.tableSlot scope) others = lastBlob (kind.tableSlot scope) blobs) :
    base.Agrees other := by
  have opened : ∀ (kind : FilterKind) (scope : ScopeId), Option.Rel
      (fun b part => Part.Opens sparseIndexOf otherFile b part)
      (lastBlob (kind.tableSlot scope) blobs) (other.part (kind.tableSlot scope)) := by
    intro kind scope
    rw [← same kind scope]
    exact otherLoaded.parts (kind.tableSlot scope)
  have listed := sound.exists_marked
  constructor
  · intro node
    obtain ⟨pairs, lists, -⟩ := listed .shared 0
    rw [loaded.sharedParent_eq sound, otherLoaded.sharedParent_eq otherSound]
    exact lookupIn_congr (loaded.parts .shared) (opened .shared 0) lists node
  · intro scope node
    obtain ⟨pairs, lists, -⟩ := listed .overlay scope
    rw [loaded.overlayParent_eq sound, otherLoaded.overlayParent_eq otherSound]
    exact lookupIn_congr (loaded.parts (.overlay scope)) (opened .overlay scope) lists node
  · intro parent limit out
    obtain ⟨pairs, lists, -⟩ := listed .sharedMembers 0
    rw [loaded.sharedChildren_eq sound, otherLoaded.sharedChildren_eq otherSound,
      childrenIn_eq (loaded.parts .sharedMembers) lists,
      childrenIn_eq (opened .sharedMembers 0) lists]
    rfl
  · intro scope parent limit out
    obtain ⟨pairs, lists, -⟩ := listed .overlayMembers scope
    rw [loaded.overlayChildren_eq sound, otherLoaded.overlayChildren_eq otherSound,
      childrenIn_eq (loaded.parts (.overlayMembers scope)) lists,
      childrenIn_eq (opened .overlayMembers scope) lists]
    rfl

end MappedBase

end Blaze

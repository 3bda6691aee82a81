import Blaze.Storage.Registry

/-!
# Encodings of the member index

The member index holds the pairs of a routing table again, in the order of their
parents, so that the children of a node are together.  It has the two encodings of
the registry, with node ids as values.
-/

namespace Blaze

open Bytes

/-- Which on-disk encoding a writer emits for the member index. -/
inductive MemberEncoding where
  | flat
  | blocked
  deriving DecidableEq, Repr

/-- Which tier a member blob describes; it decides the blob type only. -/
inductive MemberTier where
  | shared
  | overlay
  deriving DecidableEq, Repr

def sharedFlatBlobType : String := "blaze-shared-members-v1"
def sharedBlockedBlobType : String := "blaze-shared-members-v2"
def overlayFlatBlobType : String := "blaze-overlay-members-v1"
def overlayBlockedBlobType : String := "blaze-overlay-members-v2"

/-- Builds one member payload from pairs of parent and child in ascending order. -/
structure MemberWriter where
  encoding : MemberEncoding
  tier : MemberTier
  pairs : Nat
  flat : List UInt8
  blocked : BlockWriter

namespace MemberWriter

def withBlockSize (encoding : MemberEncoding) (tier : MemberTier) (blockBytes : Nat) :
    MemberWriter :=
  ⟨encoding, tier, 0, [], BlockWriter.new blockBytes⟩

def new (encoding : MemberEncoding) (tier : MemberTier) : MemberWriter :=
  withBlockSize encoding tier blockBytes

def push (w : MemberWriter) (parent child : NodeId) : MemberWriter :=
  match w.encoding with
  | .flat =>
      { w with flat := w.flat ++ putLe 8 parent ++ putLe 8 child, pairs := w.pairs + 1 }
  | .blocked => { w with blocked := w.blocked.push parent child, pairs := w.pairs + 1 }

/-- The blob type and the payload; nothing when nothing was pushed. -/
def finish (w : MemberWriter) : Option (String × List UInt8) :=
  if w.pairs = 0 then
    none
  else
    match w.encoding, w.tier with
    | .flat, .shared => some (sharedFlatBlobType, putLe 8 w.pairs ++ w.flat)
    | .flat, .overlay => some (overlayFlatBlobType, putLe 8 w.pairs ++ w.flat)
    | .blocked, .shared => some (sharedBlockedBlobType, w.blocked.payload w.pairs)
    | .blocked, .overlay => some (overlayBlockedBlobType, w.blocked.payload w.pairs)

end MemberWriter

end Blaze

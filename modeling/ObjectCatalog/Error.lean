import ObjectCatalog.Id
import ObjectCatalog.Position
import ObjectCatalog.Text.Utf8

/-!
# Failures

Every call ends in a value or in one of eight kinds of failure, each with its cause. Seven of them
are answers; the eighth is that the call stops with a panic and has no answer. Wording is in the
`text` functions only.

* `Error.message`: what is shown.
* `Error.kind`, `Error.status`: how the operations endpoint names the kind.
* `Error.isNotFound`, `Error.isInternal`: the two classes callers tell apart.
-/

namespace ObjectCatalog

/-- Why a request is refused before anything is stored. -/
inductive Rejection
  | noProject
  | noBucket
  | noKey
  | badVersion
  | noStream
  | noEncryption
  | metadataIncomplete
  | metadataAbsent
  | notNextVersion
  | nextVersion
  | noRootPiece
  | noPieces
  | pieceWithoutNode (number : UInt16)
  | pieceRepeated (number : UInt16)
  | piecesUnordered
  | partTooHigh (part : UInt32)
  | noEncryptedKey
  | noKeyNonce
  | encryptedSizeNotPositive
  | plainSizeNotPositive
  | plainSizeNegative
  | plainOffsetNegative
  | noRedundancy
  | tooFewPieces
  | tooManyParts (limit : Nat)
  | partTooSmall (part : UInt32) (size least : Int)
  | segmentRepeated (position : Position)
  | segmentsUnordered
  | segmentNotStored (position : Position)
  | noNewBucket
  | noNewKey
  | noNewStream
  | sameStream
  | wrongKeyCount (received : Nat) (needed : Int)
  | noKeysFor (position : Position)
  | noMetadataKey
  | severalBuckets
  | zeroNode (node : NodeId)
  deriving DecidableEq

/-- The wording of a refusal. -/
def Rejection.text : Rejection → String
  | noProject => "ProjectID missing"
  | noBucket => "BucketName missing"
  | noKey => "ObjectKey missing"
  | badVersion => "Version invalid"
  | noStream => "StreamID missing"
  | noEncryption => "Encryption is missing"
  | metadataIncomplete =>
    "EncryptedMetadataNonce and EncryptedMetadataEncryptedKey must be set if " ++
      "EncryptedMetadata is set"
  | metadataAbsent =>
    "EncryptedMetadataNonce and EncryptedMetadataEncryptedKey must be not set if " ++
      "EncryptedMetadata is not set"
  | notNextVersion => "Version should be NEXT_VERSION"
  | nextVersion => "Version should not be NEXT_VERSION"
  | noRootPiece => "RootPieceID missing"
  | noPieces => "pieces missing"
  | pieceWithoutNode n => s!"piece number {n} is missing storage node id"
  | pieceRepeated n => s!"duplicated piece number {n}"
  | piecesUnordered => "pieces should be ordered"
  | partTooHigh p => s!"Position part {p} exceeds {Position.maxPart}"
  | noEncryptedKey => "EncryptedKey missing"
  | noKeyNonce => "EncryptedKeyNonce missing"
  | encryptedSizeNotPositive => "EncryptedSize negative or zero"
  | plainSizeNotPositive => "PlainSize negative or zero"
  | plainSizeNegative => "PlainSize negative"
  | plainOffsetNegative => "PlainOffset negative"
  | noRedundancy => "Redundancy zero"
  | tooFewPieces => "number of pieces is less than redundancy optimal shares value"
  | tooManyParts limit => s!"exceeded maximum number of parts: {limit}"
  | partTooSmall part size least =>
    s!"size of part number {part} is below minimum threshold, got: {size}, min: {least}"
  | segmentRepeated p => s!"segment is duplicated: {p.text}"
  | segmentsUnordered => "segments not in ascending order"
  | segmentNotStored p => s!"segment {p.text} does not exist"
  | noNewBucket => "NewBucket is missing"
  | noNewKey => "NewEncryptedObjectKey is missing"
  | noNewStream => "NewStreamID is missing"
  | sameStream => "source and destination stream ids are the same"
  | wrongKeyCount received needed =>
    s!"wrong number of segments keys received (received {received}, need {needed})"
  | noKeysFor p => s!"missing new segment keys for segment {p.text}"
  | noMetadataKey => "EncryptedMetadataKeyNonce and EncryptedMetadataKey must be set"
  | severalBuckets => "all objects must be in the same bucket"
  | zeroNode n => s!"tried to alias zero node id {n.hex}"

/-- The object a call did not find. -/
inductive SoughtObject
  | exact (key : Bytes) (version : Int64)
  | latest (key : Bytes)
  | pendingForCommit
  | committed (key : Bytes) (version : Int64) (stream : StreamId)
  | copySource (key : Bytes) (version : Int64)
  | deleted
  deriving DecidableEq

/-- The wording for an object that was not found. -/
def SoughtObject.text : SoughtObject → String
  | exact key version => s!"{Utf8.decodeLossy key} version {version}"
  | latest key => Utf8.decodeLossy key
  | pendingForCommit => "object with specified version and pending status is missing"
  | committed key version stream =>
    s!"committed object {Utf8.decodeLossy key} version {version} with stream {stream.hyphenated}"
  | copySource key version => s!"source object {Utf8.decodeLossy key} version {version}"
  | deleted => "no rows deleted"

/-- The segment a call did not find. -/
inductive SoughtSegment
  | atPosition (stream : StreamId) (position : Position)
  | last (stream : StreamId)
  deriving DecidableEq

/-- The wording for a segment that was not found. -/
def SoughtSegment.text : SoughtSegment → String
  | atPosition stream position => s!"stream {stream.hyphenated} position {position.text}"
  | last stream => s!"stream {stream.hyphenated} has no segments"

/-- The version that another row already holds. -/
inductive TakenVersion
  | next (key : Bytes)
  | exact (version : Int64) (key : Bytes)
  deriving DecidableEq

/-- The wording for a version that is taken. -/
def TakenVersion.text : TakenVersion → String
  | next key => s!"concurrent upload of {Utf8.decodeLossy key} took the next version"
  | exact version key => s!"version {version} of {Utf8.decodeLossy key} already exists"

/-- Rows that contradict each other or cannot be read. -/
inductive Corruption
  | noAncestor (position : Position) (stream : StreamId)
  | noAncestorSegment (ancestor : StreamId) (position : Position)
  | segmentCount (stream : StreamId) (claimed : Int) (found : Nat)
  | unknownAlias (short : Int64)
  | aliasNotKept (node : NodeId)
  | blobVersion (version : UInt8)
  | blobTruncated
  | pieceNumberTooHigh (number : Nat)
  deriving DecidableEq

/-- The wording of a corruption. -/
def Corruption.text : Corruption → String
  | noAncestor position stream =>
    s!"segment {position.text} of stream {stream.hyphenated} has no pieces and no ancestor"
  | noAncestorSegment ancestor position =>
    s!"ancestor {ancestor.hyphenated} has no segment at position {position.text}"
  | segmentCount stream claimed found =>
    s!"object {stream.hyphenated} claims {claimed} segments but has {found}"
  | unknownAlias short => s!"unknown node alias {short}"
  | aliasNotKept node => s!"alias for node {node.hex} missing after insert"
  | blobVersion version => s!"unknown alias pieces version {version}"
  | blobTruncated => "truncated alias pieces"
  | pieceNumberTooHigh number => s!"piece number {number} out of range"

/-- The statements against the tables, as failures name them. -/
inductive Statement
  | fetchObject
  | fetchAncestorSegment
  | beginNextVersion
  | beginExactVersion
  | ensureNodes
  | refreshNodes
  | commitObject
  | commitObjectWithSegments
  | updateMetadata
  | getExactVersion
  | getLatestVersion
  | getSegment
  | getLastSegment
  | listSegments
  | finishCopy
  | deletePending
  | deleteExactVersion
  | deleteAllVersions
  | deleteCommittedVersions
  | deleteExpired
  | deleteZombies
  | deleteBucket
  | deleteSegments
  | listObjects
  | listPending
  | scanObjects
  | scanSegments
  deriving DecidableEq

/-- The name of a statement in a failure. -/
def Statement.text : Statement → String
  | fetchObject => "fetch object"
  | fetchAncestorSegment => "fetch ancestor segment"
  | beginNextVersion => "begin object next version"
  | beginExactVersion => "begin object exact version"
  | ensureNodes => "ensure node aliases"
  | refreshNodes => "refresh node aliases"
  | commitObject => "commit object"
  | commitObjectWithSegments => "commit object with segments"
  | updateMetadata => "update object metadata"
  | getExactVersion => "get object exact version"
  | getLatestVersion => "get object latest version"
  | getSegment => "get segment by position"
  | getLastSegment => "get latest object last segment"
  | listSegments => "list segments"
  | finishCopy => "finish copy object"
  | deletePending => "delete pending object"
  | deleteExactVersion => "delete object exact version"
  | deleteAllVersions => "delete object any status all versions"
  | deleteCommittedVersions => "delete objects all versions"
  | deleteExpired => "delete expired objects"
  | deleteZombies => "delete zombie objects"
  | deleteBucket => "delete bucket objects"
  | deleteSegments => "delete segments"
  | listObjects => "iterate objects"
  | listPending => "iterate pending objects by key"
  | scanObjects => "iterate loop objects"
  | scanSegments => "iterate loop segments"

/-- A failed call. -/
inductive Error
  | rejected (why : Rejection)
  | objectNotFound (what : SoughtObject)
  | segmentNotFound (what : SoughtSegment)
  | pendingMissing (stream : StreamId)
  | objectExists (what : TakenVersion)
  | storage (statement : Statement)
  | corrupted (what : Corruption)
  /-- The call panics: it asks for room for more rows than there can be room for. -/
  | capacityOverflow
  deriving DecidableEq

namespace Error

/-- What is shown for a failure. -/
def message : Error → String
  | rejected why => s!"invalid request: {why.text}"
  | objectNotFound what => s!"object not found: {what.text}"
  | segmentNotFound what => s!"segment not found: {what.text}"
  | pendingMissing stream => s!"pending object missing: stream {stream.hyphenated}"
  | objectExists what => s!"object already exists: {what.text}"
  | storage statement => statement.text
  | corrupted what => s!"corrupted metadata: {what.text}"
  | capacityOverflow => "capacity overflow"

/-- The name of a kind of failure. -/
def kind : Error → String
  | rejected _ => "invalid_request"
  | objectNotFound _ => "object_not_found"
  | segmentNotFound _ => "segment_not_found"
  | pendingMissing _ => "pending_object_missing"
  | objectExists _ => "object_exists"
  | storage _ => "storage"
  | corrupted _ => "corrupted"
  | capacityOverflow => "panic"

/-- The status the operations endpoint answers with, or 0 when it drops the connection. -/
def status : Error → Nat
  | rejected _ => 400
  | objectNotFound _ | segmentNotFound _ | pendingMissing _ => 404
  | objectExists _ => 409
  | storage _ | corrupted _ => 500
  | capacityOverflow => 0

/-- Whether something that was asked for does not exist. -/
def isNotFound : Error → Bool
  | objectNotFound _ | segmentNotFound _ | pendingMissing _ => true
  | _ => false

/-- Whether the catalogue itself failed. -/
def isInternal : Error → Bool
  | storage _ | corrupted _ => true
  | _ => false

end Error

/-- Refuses a request for a reason when a condition holds. -/
def reject {m : Type → Type} [Monad m] [MonadExceptOf Error m] (bad : Bool) (why : Rejection) :
    m Unit :=
  if bad then throw (.rejected why) else pure ()

end ObjectCatalog

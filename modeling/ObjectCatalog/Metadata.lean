import ObjectCatalog.Error

/-!
# Encrypted metadata

User metadata travels as three byte strings that are given together or not at all: the data, its
nonce and the key that opens it. Rows hold the three in columns of their own, and a row with only
some of them reads as having no metadata.
-/

namespace ObjectCatalog

/-- Encrypted user metadata with what is needed to open it. -/
structure Metadata where
  data : Bytes
  nonce : Bytes
  key : Bytes
  deriving DecidableEq

/-- The three parts as a request or a row gives them, each of which may be absent. -/
structure MetadataParts where
  data : Option Bytes := none
  nonce : Option Bytes := none
  key : Option Bytes := none
  deriving DecidableEq

namespace MetadataParts

/-- The parts of metadata that may be absent as a whole. -/
def ofMetadata : Option Metadata → MetadataParts
  | none => {}
  | some m => ⟨some m.data, some m.nonce, some m.key⟩

/-- The metadata of a row: absent unless all three parts are there. -/
def stored? : MetadataParts → Option Metadata
  | ⟨some data, some nonce, some key⟩ => some ⟨data, nonce, key⟩
  | _ => none

/-- The metadata of a request, refused when only some parts are given. -/
def check : MetadataParts → Except Error (Option Metadata)
  | ⟨none, none, none⟩ => pure none
  | ⟨some data, some nonce, some key⟩ => pure (some ⟨data, nonce, key⟩)
  | ⟨none, _, _⟩ => throw (.rejected .metadataAbsent)
  | ⟨some _, _, _⟩ => throw (.rejected .metadataIncomplete)

end MetadataParts

end ObjectCatalog

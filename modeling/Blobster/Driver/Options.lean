import Blobster.Bucket.Store

/-!
# Attributes and writer options

What the mem and file drivers take from `blobster.go` beside the conditions: the attributes of an
object and the options of a writer, in full, with their checks.  `Blobster.Bucket.Store` keeps of
the attributes what the lock and the queue read.
-/

namespace Blobster

/-- The functions the drivers take from Go's library. -/
structure Platform where
  md5 : ByteArray → ByteArray
  detectContentType : ByteArray → String
  toLower : String → String

/-- `map[string]string`. -/
abbrev UserMetadata := List (String × String)

/-- `NormalizeMetadata`: lower-case keys, none of them empty, no two alike. -/
def normalizeMetadata (pf : Platform) (metadata : UserMetadata) : Except Err UserMetadata :=
  metadata.foldlM (fun out kv =>
    if kv.1 = "" then .error .invalidOption
    else if out.any fun kv' => kv'.1 = pf.toLower kv.1 then .error .invalidOption
    else .ok (out ++ [(pf.toLower kv.1, kv.2)])) []

/-- The content headers of an object. -/
structure Headers where
  cacheControl : String := ""
  contentDisposition : String := ""
  contentEncoding : String := ""
  contentLanguage : String := ""
  contentType : String := ""
deriving DecidableEq

/-- `Attributes`, without the driver's native value. -/
structure ObjectAttrs where
  headers : Headers := {}
  metadata : UserMetadata := []
  createTime : ℤ := 0
  modTime : ℤ := 0
  size : ℕ := 0
  md5 : ByteArray := .empty
  version : Version := ""
deriving DecidableEq

/-- `WriterOptions`, as far as the mem and file drivers read them.  `beforeWrite` is what the hook
returns. -/
structure WriterOptions where
  headers : Headers := {}
  disableContentTypeDetection : Bool := false
  contentMD5 : ByteArray := .empty
  metadata : UserMetadata := []
  beforeWrite : Option Err := none

/-- `WriterOptions.Clone`. -/
def WriterOptions.clone (pf : Platform) (opts : WriterOptions) : Except Err WriterOptions :=
  (normalizeMetadata pf opts.metadata).map fun md => { opts with metadata := md }

/-- `PrepareWriteAllOptions`. -/
def prepareWriteAllOptions (pf : Platform) (opts : WriterOptions) (p : ByteArray) :
    Except Err WriterOptions :=
  (opts.clone pf).map fun out =>
    let out := if out.headers.contentType = "" ∧ ¬ out.disableContentTypeDetection then
      { out with headers := { out.headers with contentType := pf.detectContentType p } } else out
    if out.contentMD5.size = 0 then { out with contentMD5 := pf.md5 p } else out

end Blobster

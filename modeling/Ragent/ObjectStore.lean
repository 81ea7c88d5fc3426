import Ragent.Formats

set_option autoImplicit false

/-!
# The object store

The URIs of `ragent/storage.py`, and the keys that `upload` and `convert_stage` put objects under.
-/
namespace Ragent.ObjectStore
open Formats

/-- What stands in front of the key, for `get_settings().s3_bucket`. -/
def uriHead (bucket : String) : String := "s3://" ++ bucket ++ "/"

def objectUri (bucket key : String) : String := uriHead bucket ++ key

def keyOf (bucket uri : String) : String :=
  if (uriHead bucket).toList.isPrefixOf uri.toList then
    String.ofList (uri.toList.drop (uriHead bucket).toList.length)
  else uri

/-- `raw/{digest}` and the extension, if the name has one -/
def rawKey (digest extension : String) : String := "raw/" ++ digest ++ extension

/-- `converted/{document_id}.pdf` -/
def convertedKey (documentId : String) : String := "converted/" ++ documentId ++ ".pdf"

theorem keyOf_objectUri (bucket key : String) : keyOf bucket (objectUri bucket key) = key := by
  unfold keyOf objectUri
  have hstarts : (uriHead bucket).toList.isPrefixOf (uriHead bucket ++ key).toList = true := by
    rw [List.isPrefixOf_iff_prefix, String.toList_append]
    exact List.prefix_append _ _
  rw [if_pos hstarts, String.toList_append, List.drop_left, String.ofList_toList]

theorem objectUri_ne_empty (bucket key : String) : objectUri bucket key ≠ "" := by
  intro h
  have hlength := congrArg (fun s => s.toList.length) h
  simp [objectUri, uriHead] at hlength

theorem convertedKey_injective {d d' : String} (h : convertedKey d = convertedKey d') : d = d' := by
  have hlists := congrArg String.toList h
  simp only [convertedKey, String.toList_append] at hlists
  exact String.toList_injective
    (List.append_cancel_left (List.append_cancel_right hlists))

theorem rawKey_ne_convertedKey (digest extension documentId : String) :
    rawKey digest extension ≠ convertedKey documentId := by
  intro h
  have hhead := congrArg (fun s => s.toList.head?) h
  simp [rawKey, convertedKey] at hhead

/-- The digest has a fixed length, so a name with any extension cannot run into it. -/
theorem digest_of_rawKey {digest digest' extension extension' : String}
    (h : rawKey digest extension = rawKey digest' extension')
    (hlength : digest.toList.length = digest'.toList.length) : digest = digest' := by
  have hlists := congrArg String.toList h
  simp only [rawKey, String.toList_append, List.append_assoc] at hlists
  have htail := List.append_cancel_left hlists
  exact String.toList_injective (List.append_inj_left htail hlength)

end Ragent.ObjectStore

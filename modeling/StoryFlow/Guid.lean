import StoryFlow.Digest.Sha1
import StoryFlow.Text.Blank

/-! # Stable ids

An id of 128 bits for a key such as `node:42`: the first half of a digest of the key inside a
fixed name space, in upper-case hexadecimal.
-/

namespace StoryFlow.Guid

def nameSpace : String := "6ba7b810-9dad-11d1-80b4-00c04fd430c8"

/-- Eight hexadecimal digits. -/
def hexWord (w : UInt32) : List Char :=
  (Text.padLeft 8 '0' (Nat.toDigits 16 w.toNat)).map Char.toUpper

/-- The id of a key. -/
def ofKey (key : String) : String :=
  let digest := Sha1.digest (nameSpace ++ ":" ++ key).toUTF8.toList
  "0x" ++ String.ofList ((digest.take 4).flatMap hexWord)

end StoryFlow.Guid

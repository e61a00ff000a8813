import Dataflow.Digest.Blake3

/-!
# Keys of memoized outputs

The outputs of a transform are kept under a key that its name and the values of its inputs
determine.

* `Memo.preimage`: what is hashed. Every field in it follows its length, so that different names
  or values never run together into the same bytes.
* `Memo.key`: the key.
-/

namespace Dataflow.Memo

/-- The bytes of a text in UTF-8. -/
def utf8 (s : String) : Bytes := s.toUTF8.data.toList

/-- Sets the keys of memoized outputs apart from other hashes. -/
def domain : Bytes := utf8 "ruleflow.memo.v1"

/-- A field: its length in eight bytes, then its bytes. -/
def field (bytes : Bytes) : Bytes := Bytes.littleEndian 8 bytes.length ++ bytes

/-- What is hashed for a name and the values of the inputs. -/
def preimage (name : String) (inputs : List Bytes) : Bytes :=
  domain ++ field (utf8 name) ++ inputs.flatMap field

/-- The key of the outputs that a transform with this name has for these inputs. -/
def key (name : String) (inputs : List Bytes) : Bytes := blake3 (preimage name inputs)

end Dataflow.Memo

import FifteenBit.Notice

/-! Program images: words in pairs of bytes, the low one first. -/

namespace FifteenBit.Image

def pairs : List UInt8 → List Word
  | low :: high :: rest => Word.ofBytes low high :: pairs rest
  | _ => []

def bytes (ws : List Word) : List UInt8 :=
  ws.flatMap Word.bytes

theorem pairs_bytes (ws : List Word) : pairs (bytes ws) = ws := by
  induction ws with
  | nil => rfl
  | cons w ws ih =>
    simp only [bytes, List.flatMap_cons, Word.bytes, List.cons_append, List.nil_append, pairs,
      Word.ofBytes_bytes]
    exact congrArg (w :: ·) ih

def decode (s : List UInt8) : Except StorageError (List Word) :=
  if s.length % 2 ≠ 0 then .error (.oddLength s.length)
  else if memorySize < s.length / 2 then .error (.tooLarge (s.length / 2))
  else .ok (pairs s)

/-- The image in a file, from what was found there. -/
def load (path : String) (found : Except FileError (List UInt8)) :
    Logged StorageError (List Word) := do
  let s ← Logged.ofExcept (found.mapError .file)
  let image ← Logged.ofExcept (decode s)
  Logged.note (.loaded image.length path)
  return image

end FifteenBit.Image

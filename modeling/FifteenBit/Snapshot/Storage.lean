import FifteenBit.FileStore.Basic
import FifteenBit.Snapshot.Document

/-! Keeping snapshots in files. -/

namespace FifteenBit.Snapshot

/-- The snapshot in a file, from what was found there. -/
def load (found : Except FileError (List UInt8)) : Except StorageError Snapshot :=
  match found with
  | .error e => .error (.file e)
  | .ok s => (ofBytes s).mapError .json

def save (s : Snapshot) (path : String) (store : FileStore) :
    Logged StorageError FileStore := do
  let store ← Logged.ofExcept ((store.write path s.bytes).mapError .file)
  Logged.note (.saved path)
  return store

end FifteenBit.Snapshot

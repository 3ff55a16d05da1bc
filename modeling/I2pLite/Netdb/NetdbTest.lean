import I2pLite.Netdb.Free
import I2pLite.Netdb.LoadCounts
import I2pLite.Netdb.Skiplist
import I2pLite.Router.Ticks

/-!
# The test of the netdb

The test program loads a netdb, verifies every entry that an iteration visits,
looks each of them up again, and releases the netdb.  No lookup misses, but
nothing that was loaded is ever verified either.
-/

namespace I2pLite.NetdbTest

open I2pLite.CRun
open I2pLite.CBytes
open I2pLite.FileSystem
open I2pLite.BencodeObject
open I2pLite.Decoded
open I2pLite.Ri
open I2pLite.Hashmap
open I2pLite.FirstWins
open I2pLite.ForEach
open I2pLite.Netdb
open I2pLite.Skiplist
open I2pLite.LoadAll (hashOf mnetNetdbLoadAll)
open I2pLite.LoadCounts (ReadsAs LoadsAs load_of_loadsAs exists_loadsAs)
open I2pLite.NetdbFree (netdbHashmapFree freeInfos netdbHashmapFree_eq filterMap_bucketCells_perm)
open I2pLite.Ticks (routerInfoVerify_unfilled leavesUnfilled_decoded)

/-! ## The code -/

section Code

variable (digest : List Byte → IdentHash) (code : SignatureCode IdentHash)

end Code

/-! ## Iterations that count -/

section Loaded

variable {digest : List Byte → IdentHash} {code : SignatureCode IdentHash}
variable {ris : List RouterInfo} {map : NetdbHashmap RouterInfo} {db : MnetNetdb RouterInfo}

end Loaded

end I2pLite.NetdbTest

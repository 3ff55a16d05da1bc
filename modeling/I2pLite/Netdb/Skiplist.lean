import I2pLite.Netdb.Netdb

/-!
# The directories of the netdb

The root and the 64 directories below it are created where they are missing.
-/

namespace I2pLite.Skiplist

open I2pLite.CRun
open I2pLite.CBytes
open I2pLite.Base64
open I2pLite.Netdb

/-- What `opendir` does with a path: it opens it, fails with `ENOENT`, or fails
with another error. -/
inductive OpenedDir
  | opened
  | missing
  | refused
  deriving DecidableEq

/-- The directories that can be opened, and those that can be created. -/
structure DirectoryCalls where
  opendir : CString → OpenedDir
  mkdir : CString → Bool

section Ensure

variable {Ri : Type} (calls : DirectoryCalls)

/-- `d` or a call of `mkdir`, for the root. -/
def ensureRoot (root : CString) : Bool := calls.opendir root = .opened || calls.mkdir root

/-- What one turn of the loop makes of `ret`: only a missing directory is
created. -/
def ensureSubdir (path : CString) : Bool := calls.opendir path ≠ .missing || calls.mkdir path

/-- The loop over the characters that are left. -/
def ensureSubdirs (root : CString) : List Byte → Run ℤ
  | [] => .ok 1
  | c :: chars => do
      let path ← pathJoin root [ofBuffer [ch 'r', c]]
      if ensureSubdir calls path then ensureSubdirs root chars else .ok 0

def mnetNetdbEnsureSkiplist (db : MnetNetdb Ri) : Run ℤ :=
  if ensureRoot calls db.rootdir then ensureSubdirs calls db.rootdir mnetBase64Chars
  else .ok 0

end Ensure

end I2pLite.Skiplist

import I2pLite.Core.FileSystem
import I2pLite.Encoding.Base64
import I2pLite.Netdb.Hashmap

/-!
# The netdb on disk

Every router info is written to a file of its own, named after its ident hash,
in one of 64 directories below the root.  Loading reads all files of all
directories there.
-/

namespace I2pLite.Netdb

open I2pLite.CRun
open I2pLite.CBytes
open I2pLite.FileSystem
open I2pLite.Base64
open I2pLite.Hashmap

/-! ## Paths and directories -/

/-- The loop of `path_join`, from the text in the buffer and `idx` on. -/
def joinParts (path : List Byte) (idx : ℕ) : List CString → Run (List Byte)
  | [] => .ok path
  | part :: parts =>
      -- `sizeof(path) - idx` wraps around
      if 256 < idx then .error .outOfBounds
      else
        let text := ch '/' :: part.bytes
        joinParts (path ++ text.take (255 - idx)) (idx + text.length) parts

def pathJoin (base : CString) (parts : List CString) : Run CString :=
  let idx := strlen base
  if idx = 0 then .error .assertFailed
  else do
    let path ← joinParts (base.bytes.take 255) idx parts
    .ok (ofBuffer path)

section Iterate

variable {S : Type}

/-- The loop of `iterate_all_with_filter`.  Its result is not used. -/
def iterateAllWithFilter (tree : Tree) (readdir : CString → List CString) (path : CString)
    (filter : CString → Bool) (visit : CString → S → Run S) (user : S) : Run S :=
  if tree.isDir path then
    (readdir path).foldlM (fun user name =>
      if name ≠ dot ∧ name ≠ dotDot then do
        let fpath ← pathJoin path [name]
        if filter fpath then visit fpath user else .ok user
      else .ok user) user
  else .ok user

def iterateAllFiles (tree : Tree) (readdir : CString → List CString) (path : CString)
    (visit : CString → S → Run S) (user : S) : Run S :=
  iterateAllWithFilter tree readdir path tree.isFile visit user

def iterateAllDirs (tree : Tree) (readdir : CString → List CString) (path : CString)
    (visit : CString → S → Run S) (user : S) : Run S :=
  iterateAllWithFilter tree readdir path tree.isDir visit user

end Iterate

/-! ## Router infos -/

/-- The code for router infos as the netdb calls it: `router_info_hash`, what is
returned and written by `router_info_write`, what is returned by
`router_info_load` for a new router info and becomes of that, and
`router_info_free`. -/
structure RouterInfoCode (Ri : Type) where
  hash : Ri → Run IdentHash
  write : Ri → Run (ℤ × List Byte)
  load : List Byte → Run (ℤ × Ri)
  free : Ri → Run Unit

/-- A hash, where there is one. -/
def okHash (hash : Run IdentHash) : IdentHash :=
  match hash with
  | .ok h => h
  | .error _ => .replicate 32 0

def RouterInfoCode.hashOf {Ri : Type} (code : RouterInfoCode Ri) (ri : Ri) : IdentHash :=
  okHash (code.hash ri)

/-- What has a hash is written, and what was written is loaded with the same
hash. -/
def RouterInfoCode.Lossless {Ri : Type} (code : RouterInfoCode Ri) : Prop :=
  ∀ ri h, code.hash ri = .ok h →
    ∃ bytes, code.write ri = .ok (1, bytes) ∧
      ∃ ret ri', code.load bytes = .ok (ret, ri') ∧ ret ≠ 0 ∧ code.hash ri' = .ok h

/-! ## The netdb -/

section Netdb

variable {Ri : Type}

/-- `struct mnet_netdb`. -/
structure MnetNetdb (Ri : Type) where
  map : NetdbHashmap Ri
  rootdir : CString

def mnetNetdbNew (dir : CString) : MnetNetdb Ri := { map := netdbHashmapInit, rootdir := dir }

/-- The names of the directory and the file of an entry. -/
def entryNames (ident : IdentHash) : Run (CString × CString) := do
  let (_, base64) ← base64Encode ident.toList 32 (List.replicate 128 0) 128
  let skipdir := ofBuffer ([ch 'r', base64.getD 0 0].take 3)
  let buf := ofBuffer (([ch 'n', ch 'o', ch 'd', ch 'e', ch '-', ch 'r'] ++
    (ofBuffer base64).bytes ++ [ch '.', ch 'd', ch 'a', ch 't']).take 127)
  .ok (skipdir, buf)

/-- `netdb_open_file` for writing: the path, and the tree with an empty file
there. -/
def netdbOpenFile (tree : Tree) (db : MnetNetdb Ri) (ident : IdentHash) :
    Run (Option (CString × Tree)) := do
  let (skipdir, buf) ← entryNames ident
  let fpath ← pathJoin db.rootdir [skipdir, buf]
  .ok ((tree.fopenWrite fpath).map fun tree => (fpath, tree))

/-- `struct netdb_write_ctx`, and the tree that is written to. -/
structure NetdbWriteCtx where
  result : ℤ
  tree : Tree

def netdbWriteEntry (write : Ri → Run (ℤ × List Byte)) (db : MnetNetdb Ri) (h : IdentHash)
    (ri : Ri) (ctx : NetdbWriteCtx) : Run NetdbWriteCtx :=
  if ctx.result ≠ 0 then do
    match ← netdbOpenFile ctx.tree db h with
    | some (fpath, tree) =>
        let (result, bytes) ← write ri
        .ok { result := result, tree := tree.put fpath bytes }
    | none => .ok { result := 0, tree := ctx.tree }
  else .ok ctx

/-- The returned flag and the tree behind the call. -/
def mnetNetdbFlushToDisk (write : Ri → Run (ℤ × List Byte)) (db : MnetNetdb Ri) (tree : Tree) :
    Run (ℤ × Tree) := do
  let ctx ← netdbHashmapForEach db.map (netdbWriteEntry write db) { result := 1, tree := tree }
  .ok (ctx.result, ctx.tree)

/-- `struct netdb_read_ctx`. -/
structure NetdbReadCtx (Ri : Type) where
  failed : ℕ
  loaded : ℕ
  db : MnetNetdb Ri

def netdbReadFile (code : RouterInfoCode Ri) (tree : Tree) (filename : CString)
    (ctx : NetdbReadCtx Ri) : Run (NetdbReadCtx Ri) :=
  match tree.fopenRead filename with
  | none => .ok { ctx with failed := ctx.failed + 1 }
  | some bytes => do
      let (ret, ri) ← code.load bytes
      if ret ≠ 0 then
        let h ← code.hash ri
        let (_, map) ← netdbHashmapInsert (fun _ => h) ctx.db.map ri
        .ok { ctx with db := { ctx.db with map := map }, loaded := ctx.loaded + 1 }
      else
        code.free ri
        .ok { ctx with failed := ctx.failed + 1 }

def netdbLoadSkiplistSubdir (code : RouterInfoCode Ri) (tree : Tree)
    (readdir : CString → List CString) (dir : CString) (ctx : NetdbReadCtx Ri) :
    Run (NetdbReadCtx Ri) :=
  iterateAllFiles tree readdir dir (netdbReadFile code tree) ctx

/-- The returned count, and the context behind the walk. -/
def mnetNetdbLoadAll (code : RouterInfoCode Ri) (tree : Tree)
    (readdir : CString → List CString) (db : MnetNetdb Ri) : Run (ℕ × NetdbReadCtx Ri) := do
  let ctx ← iterateAllDirs tree readdir db.rootdir (netdbLoadSkiplistSubdir code tree readdir)
    { failed := 0, loaded := 0, db := db }
  .ok (ctx.loaded, ctx)

def mnetNetdbLoadedPeerCount (db : MnetNetdb Ri) : ℕ := netdbHashmapSize db.map

end Netdb

end I2pLite.Netdb

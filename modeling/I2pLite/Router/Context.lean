import I2pLite.Netdb.NodeStreams
import I2pLite.Netdb.Skiplist

/-!
# Router contexts

A context is loaded from its data directory: the keys, which are generated where
there are none, the router info, and the netdb.  Files are read as they are.
-/

namespace I2pLite.Context

open I2pLite.CRun
open I2pLite.CBytes
open I2pLite.FileSystem
open I2pLite.BencodeObject
open I2pLite.Keys
open I2pLite.KeyStreams
open I2pLite.Ri
open I2pLite.InfoStreams
open I2pLite.Hashmap
open I2pLite.Netdb
open I2pLite.NodeStreams
open I2pLite.Skiplist

/-- `struct router_context`; the other fields are not used by a load. -/
structure RouterContext where
  netdb : MnetNetdb RouterInfo
  privkeys : Option MnetIdentityKeys
  ourRi : ObjPtr RouterInfo

/-- The context behind `router_context_new`, given the directory of its netdb. -/
def routerContextNew (dir : CString) : RouterContext where
  netdb := mnetNetdbNew dir
  privkeys := none
  ourRi := .null

/-! ## The data directory -/

/-- The files of the data directory, and the tree of its netdb. -/
structure DataDir where
  routerKeys : Option (List Byte)
  routerInfo : Option (List Byte)
  nodes : Tree
  readdir : CString → List CString

/-- What happens in a call of `router_context_regenerate_identity`: the random
bytes, whether the file is opened, what it holds where an object is written to
it, and what is left in it where that fails. -/
structure Regeneration where
  rand : List.Vector Byte 32
  opens : Bool
  write : BencodeObj → Option (List Byte)
  remains : List Byte

/-- Which file operations of a load succeed, each of which can be reached once. -/
structure Operations where
  findsDataDir : Bool
  makesDataDir : Bool
  findsKeys : Bool
  regeneration : Regeneration
  deletesKeys : Bool
  secondRegeneration : Regeneration
  opensKeys : Bool
  createsInfo : Bool
  opensInfo : Bool
  directories : DirectoryCalls

/-- `fopen` with mode `r`: a file that is there may still not be opened. -/
def openForReading (opens : Bool) (file : Option (List Byte)) : Option (List Byte) :=
  if opens then file else none

/-- The code below: keys and hashes. -/
structure Codecs where
  eddsa : EddsaCode
  digest : List Byte → IdentHash

/-! ## Releasing -/

def mnetIdentityKeysFree (k : Option MnetIdentityKeys) : Run (Option MnetIdentityKeys) := do
  let _ ← deref k
  .ok none

def routerInfoOf : ObjPtr RouterInfo → Run RouterInfo
  | .null => .error .nullDeref
  | .freed => .error .useAfterFree
  | .live ri => .ok ri

/-- `mnet_identity_keys_free(&ctx->privkeys)`. -/
def releasePrivkeys (ctx : RouterContext) : Run RouterContext := do
  let privkeys ← mnetIdentityKeysFree ctx.privkeys
  .ok { ctx with privkeys := privkeys }

/-- `router_info_free(&ctx->our_ri)`, which leaves the pointer as it is. -/
def releaseOurRi (ctx : RouterContext) : Run RouterContext := do
  let ri ← routerInfoOf ctx.ourRi
  routerInfoFree ri
  .ok { ctx with ourRi := .freed }

/-- An existing router info is released. -/
def dropOurRi (ctx : RouterContext) : Run RouterContext :=
  match ctx.ourRi with
  | .null => .ok ctx
  | _ => releaseOurRi ctx

/-! ## Keys and router infos -/

def defaultIdentitySigType : UInt16 := 0

section Load

variable (fuel : ℕ) (codecs : Codecs) (ops : Operations)

/-- Existing keys are released where the new ones have been written. -/
def routerContextRegenerateIdentity (regeneration : Regeneration) (ctx : RouterContext)
    (dir : DataDir) (sigtype : UInt16) : Run (ℤ × RouterContext × DataDir) :=
  if regeneration.opens then do
    let (_, k) ← mnetIdentityKeysGenerate codecs.eddsa regeneration.rand mnetIdentityKeysNew sigtype
    let (ret, file) ← mnetIdentityKeysWrite regeneration.write k
    if ret ≠ 0 then .ok (1, { ctx with privkeys := some k }, { dir with routerKeys := file })
    else .ok (0, ctx, { dir with routerKeys := some regeneration.remains })
  else .ok (0, ctx, dir)

def routerContextUpdateRouterInfo (conf : RouterInfoConfig) (ctx : RouterContext)
    (dir : DataDir) : Run (RouterContext × DataDir) := do
  let ctx ← dropOurRi ctx
  let k ← deref ctx.privkeys
  let ri := routerInfoGenerate k conf
  if ops.createsInfo then
    let (_, file) ← routerInfoWrite ri []
    .ok ({ ctx with ourRi := .live ri }, { dir with routerInfo := some file })
  else .ok ({ ctx with ourRi := .live ri }, dir)

/-! ## Loading -/

/-- Where there are no keys they are generated, with a second try. -/
def ensureKeys (ctx : RouterContext) (dir : DataDir) : Run (ℤ × RouterContext × DataDir) :=
  if ops.findsKeys then .ok (1, ctx, dir)
  else do
    let (ret, ctx, dir) ← routerContextRegenerateIdentity codecs ops.regeneration ctx dir
      defaultIdentitySigType
    if ret ≠ 0 then .ok (ret, ctx, dir)
    else
      let dir := if ops.deletesKeys then { dir with routerKeys := none } else dir
      routerContextRegenerateIdentity codecs ops.secondRegeneration ctx dir defaultIdentitySigType

/-- The keys are read, and the router info is written. -/
def loadKeys (ctx : RouterContext) (dir : DataDir) : Run (ℤ × RouterContext × DataDir) :=
  match openForReading ops.opensKeys dir.routerKeys with
  | none => .ok (0, ctx, dir)
  | some f => do
      let (ret, k) ← mnetIdentityKeysRead codecs.eddsa fuel mnetIdentityKeysNew f
      let ctx := { ctx with privkeys := some k }
      if ret ≠ 0 then
        let (ctx, dir) ← routerContextUpdateRouterInfo ops { caps := none } ctx dir
        .ok (1, ctx, dir)
      else
        let ctx ← releasePrivkeys ctx
        .ok (0, ctx, dir)

/-- The router info is read back. -/
def loadInfo (ctx : RouterContext) (dir : DataDir) : Run (ℤ × RouterContext) :=
  match openForReading ops.opensInfo dir.routerInfo with
  | none => do
      let ctx ← releasePrivkeys ctx
      .ok (0, ctx)
  | some f => do
      let (ret, ri) ← routerInfoLoad fuel routerInfoNew f
      let ctx := { ctx with ourRi := .live ri }
      if ret ≠ 0 then .ok (1, ctx)
      else
        let ctx ← releaseOurRi ctx
        let ctx ← releasePrivkeys ctx
        .ok (0, ctx)

/-- The directories of the netdb are ensured, and the netdb is loaded. -/
def loadNetdb (ctx : RouterContext) (dir : DataDir) : Run (ℤ × RouterContext) := do
  let ret ← mnetNetdbEnsureSkiplist ops.directories ctx.netdb
  if ret ≠ 0 then
    let (_, read) ← mnetNetdbLoadAll fuel codecs.digest dir.nodes dir.readdir ctx.netdb
    .ok (1, { ctx with netdb := read.db })
  else
    let ctx ← releasePrivkeys ctx
    let ctx ← releaseOurRi ctx
    .ok (0, ctx)

/-- What comes behind the router info. -/
def finishLoad (ctx : RouterContext) (dir : DataDir) : Run (ℤ × RouterContext) :=
  match ctx.ourRi with
  | .null => do
      let ctx ← releasePrivkeys ctx
      .ok (0, ctx)
  | ourRi => do
      let ri ← routerInfoOf ourRi
      let _ ← routerInfoBase64Ident codecs.digest ri
      loadNetdb fuel codecs ops ctx dir

/-- What comes behind the check for the keys. -/
def loadFiles (ctx : RouterContext) (dir : DataDir) : Run (ℤ × RouterContext) := do
  let (ret, ctx, dir) ← loadKeys fuel codecs ops ctx dir
  if ret = 0 then .ok (0, ctx)
  else do
    let (ret, ctx) ← loadInfo fuel ops ctx dir
    if ret = 0 then .ok (0, ctx)
    else finishLoad fuel codecs ops ctx dir

/-- The returned flag, and the context behind the call. -/
def routerContextLoad (ctx : RouterContext) (dir : DataDir) : Run (ℤ × RouterContext) :=
  if ops.findsDataDir || ops.makesDataDir then do
    let (ret, ctx, dir) ← ensureKeys codecs ops ctx dir
    if ret = 0 then .ok (0, ctx) else loadFiles fuel codecs ops ctx dir
  else .ok (0, ctx)

end Load

end I2pLite.Context

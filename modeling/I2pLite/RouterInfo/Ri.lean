import I2pLite.Identity.Keys

/-!
# Router infos

A router info has an identity, a link configuration and a text of capabilities.
It is loaded from a bencode dict; its capabilities then point into the dict,
which is released behind the load.
-/

namespace I2pLite.Ri

open I2pLite.CRun
open I2pLite.CBytes
open I2pLite.CInt
open I2pLite.Memory
open I2pLite.Base64
open I2pLite.BencodeObject
open I2pLite.Decoded
open I2pLite.Identity
open I2pLite.Keys

def capsName : CString := ofBuffer ("caps".toList.map ch)

def iwpName : CString := ofBuffer ("iwp".toList.map ch)

def identName : CString := ofBuffer ("ident".toList.map ch)

def pubkeyName : CString := ofBuffer ("pubkey".toList.map ch)

def addrName : CString := ofBuffer ("addr".toList.map ch)

/-- The buffer that `bencode_obj_getstr` points a null pointer to, if any. -/
def stringBuffer (v : BencodeObj) : Option (List Byte) := (bencodeObjGetstr v).bind bufferOf

/-! ## Link configurations -/

/-- `struct iwp_config`; the other fields are not used. -/
structure IwpConfig where
  pubkey : Option CString
  addr : Option CString

def iwpConfigNew : IwpConfig := { pubkey := none, addr := none }

/-- The pointer behind the call is null. -/
def iwpConfigFree (cfg : Option IwpConfig) : Run (Option IwpConfig) := do
  let _ ← deref cfg
  .ok none

def iwpConfigIterDict (key : CString) (val : BencodeObj) (cfg : IwpConfig) : Run IwpConfig :=
  if strcmp key pubkeyName = 0 then
    match stringBuffer val with
    | some v => .ok { cfg with pubkey := some (ofBuffer v) }
    | none => .ok cfg
  else if strcmp key addrName = 0 then
    match stringBuffer val with
    | some a => .ok { cfg with addr := some (ofBuffer a) }
    | none => .ok cfg
  else .ok cfg

/-- The configuration, and whether it has both of its texts. -/
def iwpConfigLoadDict (cfg : IwpConfig) (d : BencodeObj) : Run (IwpConfig × Bool) := do
  let cfg ← iterDict d iwpConfigIterDict cfg
  .ok (cfg, cfg.addr.isSome && cfg.pubkey.isSome)

/-! ## Router infos -/

/-- What a `caps` pointer leads to: storage of its own, a string of the dict that
is being read, or a string of one that has been released. -/
inductive Caps
  | owned (text : CString)
  | shared (text : CString)
  | dangling

/-- `struct router_info`. -/
structure RouterInfo where
  data : Option (List Byte)
  len : ℕ
  identity : Option MnetIdentity
  link : Option IwpConfig
  caps : Option Caps

def routerInfoNew : RouterInfo where
  data := none
  len := 0
  identity := none
  link := none
  caps := none

def routerInfoFree (ri : RouterInfo) : Run Unit := do
  let _ ← iwpConfigFree ri.link
  match ri.caps with
  | some .dangling => .error .useAfterFree
  | _ => .ok ()

/-! ## Loading -/

/-- `ri_read_ctx`, and whether a string of the dict has been released. -/
structure RiReadCtx where
  ri : RouterInfo
  success : ℤ
  released : Bool

/-- What comes first for an entry of capabilities: the existing ones are
released. -/
def dropCaps (ctx : RiReadCtx) : Run RiReadCtx :=
  match ctx.ri.caps with
  | none => .ok ctx
  | some (.owned _) => .ok { ctx with ri := { ctx.ri with caps := none } }
  | some (.shared _) => .ok { ctx with ri := { ctx.ri with caps := none }, released := true }
  | some .dangling => .error .useAfterFree

def processCaps (v : BencodeObj) (ctx : RiReadCtx) : Run RiReadCtx := do
  let ctx ← dropCaps ctx
  match bencodeObjGetstr v with
  | none => .ok ctx
  | some data =>
      -- the terminator is stored through the pointer
      let buffer ← deref (bufferOf data)
      .ok { ctx with ri := { ctx.ri with caps := some (.shared (ofBuffer buffer)) } }

/-- An existing configuration is released. -/
def dropLink (link : Option IwpConfig) : Run (Option IwpConfig) :=
  if link.isSome then iwpConfigFree link else .ok none

/-- A configuration that lacks a text is released again. -/
def keepLink (loaded : IwpConfig × Bool) : Run (Option IwpConfig) :=
  if loaded.2 then .ok (some loaded.1) else iwpConfigFree (some loaded.1)

def processIwp (v : BencodeObj) (ctx : RiReadCtx) : Run RiReadCtx := do
  let _ ← dropLink ctx.ri.link
  let loaded ← iwpConfigLoadDict iwpConfigNew v
  let link ← keepLink loaded
  .ok { ctx with ri := { ctx.ri with link := link } }

def processIdent (v : BencodeObj) (ctx : RiReadCtx) : Run RiReadCtx :=
  match stringBuffer v with
  | none => .ok { ctx with ri := { ctx.ri with identity := some mnetIdentityNew } }
  | some str => do
      let (identity, _) ← mnetIdentityFromBase64 mnetIdentityNew (ofBuffer str)
      .ok { ctx with ri := { ctx.ri with identity := some identity } }

def routerInfoProcess (k : CString) (v : BencodeObj) (ctx : RiReadCtx) : Run RiReadCtx :=
  if strcmp k capsName = 0 then processCaps v ctx
  else if strcmp k iwpName = 0 then processIwp v ctx
  else if strcmp k identName = 0 then processIdent v ctx
  else .ok ctx

/-- The router info once the dict that it was loaded from is gone. -/
def outlive (ri : RouterInfo) : RouterInfo :=
  match ri.caps with
  | some (.shared _) => { ri with caps := some .dangling }
  | _ => ri

section Files

variable {File : Type}

/-- What `router_info_load` does with the object where the count is positive. -/
def processRead (bencode : BencodeCode File) (count : ℤ) (benc : Option BencodeObj)
    (ctx : RiReadCtx) : Run RiReadCtx :=
  if count > 0 then do
    let benc ← deref benc
    if bencodeObjIsDict benc then
      bencode.iterDict benc routerInfoProcess { ctx with success := 1 }
    else .ok ctx
  else .ok ctx

/-- The returned flag, and the router info.  An object is released whatever the
count. -/
def routerInfoLoadBy (bencode : BencodeCode File) (ri : RouterInfo) (f : File) :
    Run (ℤ × RouterInfo) := do
  let (count, benc) ← bencode.readFile f
  let ctx ← processRead bencode count benc { ri := ri, success := 0, released := false }
  match benc with
  | none => .ok (ctx.success, ctx.ri)
  | some benc => do
      bencode.objFree ctx.released benc
      .ok (ctx.success, outlive ctx.ri)

/-- The load of a file that is decoded, or not. -/
def routerInfoLoad (read : File → Option BencodeObj) (ri : RouterInfo) (f : File) :
    Run (ℤ × RouterInfo) :=
  routerInfoLoadBy (decodedFiles read) ri f

section Decoded

variable {read : File → Option BencodeObj} {ri : RouterInfo} {f : File} {benc : BencodeObj}

theorem routerInfoLoad_of_none (hread : read f = none) :
    routerInfoLoad read ri f = .ok (0, ri) := by
  simp only [routerInfoLoad, routerInfoLoadBy, decodedFiles, hread]
  rfl

theorem routerInfoLoad_of_isDict (hread : read f = some benc)
    (hdict : bencodeObjIsDict benc = true) :
    routerInfoLoad read ri f = (do
      let ctx ← iterDict benc routerInfoProcess { ri := ri, success := 1, released := false }
      releaseDecoded ctx.released
      .ok (ctx.success, outlive ctx.ri)) := by
  simp only [routerInfoLoad, routerInfoLoadBy, decodedFiles, processRead, hread, ok_bind,
    deref_some, hdict, if_true]
  rfl

theorem routerInfoLoad_of_not_isDict (hread : read f = some benc)
    (hdict : bencodeObjIsDict benc = false) :
    routerInfoLoad read ri f = .ok (0, outlive ri) := by
  simp only [routerInfoLoad, routerInfoLoadBy, decodedFiles, processRead, hread, ok_bind,
    deref_some, hdict, if_neg Bool.false_ne_true]
  rfl

end Decoded

/-- The returned flag, and the file behind the call: the dict is built, and
released again. -/
def routerInfoWrite (ri : RouterInfo) (f : File) : Run (ℤ × File) := do
  let str ← mnetIdentityToBase64 (← deref ri.identity)
  let k := bencodeObjStr (← deref str).bytes
  let _ ← bencodeObjDictSet 1 bencodeObjDict (some identName) k
  .ok (0, f)

end Files

/-! ## Signatures -/

abbrev EddsaSig := List.Vector Byte 64

/-- `eddsa_verify_signature` and the hash of what is signed. -/
structure SignatureCode (Hash : Type) where
  mnetHash : List Byte → Hash
  eddsaVerifySignature : EddsaPubkey → Hash → EddsaSig → Bool

variable {Hash : Type}

def mnetIdentitySiglen : ℕ := 64

/-- The signature is at the offset `sig` of the data. -/
def mnetIdentityVerifyData (code : SignatureCode Hash) (i : MnetIdentity) (data : List Byte)
    (inlen sig : ℕ) : Run ℤ := do
  let edSig ← load data sig 64
  let signed ← load data 0 inlen
  let eddsa ← deref i.eddsa
  .ok (if code.eddsaVerifySignature eddsa (code.mnetHash signed.toList) edSig then 1 else 0)

def routerInfoVerify (code : SignatureCode Hash) (ri : RouterInfo) : Run ℤ :=
  -- the difference is a `size_t`
  let l := toInt32 (toSize (ri.len - mnetIdentitySiglen))
  if 0 < l then do
    mnetIdentityVerifyData code (← deref ri.identity) (← deref ri.data) l.toNat l.toNat
  else .ok 0

/-- `struct router_info_config`; the other fields are not used. -/
structure RouterInfoConfig where
  caps : Option CString

/-- The identity is that of the keys. -/
def routerInfoGenerate (k : MnetIdentityKeys) (config : RouterInfoConfig) : RouterInfo where
  data := none
  len := 0
  identity := mnetIdentityKeysToPublic k
  link := none
  caps := config.caps.map Caps.owned

/-! ## Properties of a router info -/

def routerInfoHash (digest : List Byte → Hash) (ri : RouterInfo) : Run Hash := do
  mnetIdentityHash digest (← deref ri.identity)

def routerInfoBase64Ident (digest : List Byte → List.Vector Byte 32) (ri : RouterInfo) :
    Run CString := do
  let h ← routerInfoHash digest ri
  let (_, s) ← base64Encode h.toList 32 (List.replicate 128 0) 128
  .ok (ofBuffer s)

/-- A copy of the capabilities. -/
def routerInfoGetCaps (ri : RouterInfo) : Run (Option CString) :=
  match ri.caps with
  | none => .ok none
  | some (.owned text) => .ok (some text)
  | some (.shared text) => .ok (some text)
  | some .dangling => .error .useAfterFree

end I2pLite.Ri

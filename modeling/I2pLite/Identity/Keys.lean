import I2pLite.Bencode.Decoded
import I2pLite.Identity.Identity

/-!
# Identity keys

The private key of an identity, with the identity.  Keys are generated from a
random seed, written to a file as a bencode dict, and read back.
-/

namespace I2pLite.Keys

open I2pLite.CRun
open I2pLite.CBytes
open I2pLite.Memory
open I2pLite.BencodeObject
open I2pLite.Decoded
open I2pLite.Cert
open I2pLite.Identity

/-! ## EdDSA keys -/

abbrev EddsaPrivkey := List.Vector Byte 32

/-- `struct eddsa_Sign`: the seed, and the public key behind it. -/
structure EddsaSign where
  k : List.Vector Byte (32 + 32)
  deriving DecidableEq

/-- The public key that `crypto_sign_seed_keypair` makes of a seed, and the hash
that seeds are made with. -/
structure EddsaCode where
  publicKeyOf : EddsaPrivkey → EddsaPubkey
  mnetHash : List Byte → EddsaPrivkey

section Eddsa

variable (code : EddsaCode)

def eddsaSignNew (priv : EddsaPrivkey) : EddsaSign := ⟨priv ++ code.publicKeyOf priv⟩

def eddsaSignCopyKeyData (s : EddsaSign) : Run EddsaPrivkey := load s.k.toList 0 32

/-- The private and the public key, from what `mnet_rand` delivers. -/
def eddsaKeygen (rand : List.Vector Byte 32) : EddsaPrivkey × EddsaPubkey :=
  let h := code.mnetHash rand.toList
  (h, code.publicKeyOf h)

end Eddsa

/-! ## Identity keys -/

/-- `struct mnet_identity_keys`. -/
structure MnetIdentityKeys where
  ident : Option MnetIdentity
  eddsa : Option EddsaSign

def mnetIdentityKeysNew : MnetIdentityKeys := { ident := none, eddsa := none }

/-- The returned flag, and the keys.  What they held before is released. -/
def mnetIdentityKeysGenerate (code : EddsaCode) (rand : List.Vector Byte 32)
    (_ : MnetIdentityKeys) (sigtype : UInt16) : Run (ℤ × MnetIdentityKeys) := do
  let (edPriv, edPub) := eddsaKeygen code rand
  let cert ← mnetCertInit 0 (htobe16 sigtype ++ [0]) 0
  .ok (1, {
    ident := some { cert := some cert, eddsa := some edPub }
    eddsa := some (eddsaSignNew code edPriv) })

def mnetIdentityKeysToPublic (k : MnetIdentityKeys) : Option MnetIdentity := k.ident

def eddsaPrivkeyName : CString := ofBuffer ("eddsa_privkey".toList.map ch)

def certName : CString := ofBuffer ("cert".toList.map ch)

/-! ## Files -/

section Files

variable {File : Type}

/-- The entry for the certificate, where there is one.  Its first key is above
the name, so one turn of the loop finds the place. -/
def setCert (benc : BencodeObj) (cert : Option MnetCert) : Run BencodeObj :=
  match cert with
  | none => .ok benc
  | some cert => do
      let sz := (mnetCertBufferLength cert).toNat
      if sz = 0 then bencodeObjDictSet 2 benc (some certName) (bencodeObjStr [])
      else
        let data ← load (← deref (mnetCertBuffer cert)) 0 sz
        bencodeObjDictSet 2 benc (some certName) (bencodeObjStr data.toList)

/-- The dict that is written. -/
def keysDict (k : MnetIdentityKeys) (eddsa : EddsaSign) : Run BencodeObj := do
  let privkey ← eddsaSignCopyKeyData eddsa
  let benc ← bencodeObjDictSet 2 bencodeObjDict (some eddsaPrivkeyName)
    (bencodeObjStr privkey.toList)
  let ident ← deref k.ident
  setCert benc ident.cert

/-- The returned flag, and what has been written; `write` is none where
`bencode_write_file` returns -1. -/
def mnetIdentityKeysWrite (write : BencodeObj → Option File) (k : MnetIdentityKeys) :
    Run (ℤ × Option File) :=
  match k.eddsa with
  | none => .ok (0, none)
  | some eddsa => do
      let benc ← keysDict k eddsa
      match write benc with
      | some file => .ok (1, some file)
      | none => .ok (0, none)

/-- `struct mnet_keys_iter_ctx`, and whether a string of the dict has been
released. -/
structure MnetKeysIterCtx where
  k : MnetIdentityKeys
  success : Bool
  released : Bool

/-- The context of a walk, once both parts of the keys have been released. -/
def mnetKeysIterCtxNew : MnetKeysIterCtx where
  k := mnetIdentityKeysNew
  success := false
  released := false

/-- Behind the test for the name of the entry: the string is released, though it
belongs to the dict. -/
def readPrivkey (code : EddsaCode) (v : BencodeObj) (ctx : MnetKeysIterCtx) :
    Run MnetKeysIterCtx :=
  match bencodeObjGetstr v with
  | none => .ok { ctx with success := false }
  | some key =>
      let released := ctx.released || (bufferOf key).isSome
      if key.length = 32 then do
        let privkey ← load key 0 32
        let k := { ctx.k with eddsa := some (eddsaSignNew code privkey) }
        .ok { k := k, success := true, released := released }
      else .ok { ctx with success := false, released := released }

def mnetIdentityKeysIterDict (code : EddsaCode) (k : CString) (v : BencodeObj)
    (ctx : MnetKeysIterCtx) : Run MnetKeysIterCtx :=
  if ctx.k.eddsa = none then
    if strcmp k eddsaPrivkeyName = 0 then readPrivkey code v ctx
    else .ok ctx
  else .ok ctx

/-- The returned flag, and the keys.  Any count but -1 is taken for a read. -/
def mnetIdentityKeysReadBy (bencode : BencodeCode File) (code : EddsaCode)
    (k : MnetIdentityKeys) (f : File) : Run (ℤ × MnetIdentityKeys) := do
  let (count, benc) ← bencode.readFile f
  if count = -1 then .ok (-1, k)
  else do
    let benc ← deref benc
    if bencodeObjIsDict benc then
      let ctx ← bencode.iterDict benc (mnetIdentityKeysIterDict code) mnetKeysIterCtxNew
      bencode.objFree ctx.released benc
      .ok (if ctx.success then 1 else 0, ctx.k)
    else
      bencode.objFree false benc
      .ok (0, k)

/-- The read of a file that is decoded; `read` is none where
`bencode_read_file` returns -1. -/
def mnetIdentityKeysRead (code : EddsaCode) (read : File → Option BencodeObj)
    (k : MnetIdentityKeys) (f : File) : Run (ℤ × MnetIdentityKeys) :=
  mnetIdentityKeysReadBy (decodedFiles read) code k f

theorem mnetIdentityKeysRead_of_none {code : EddsaCode} {read : File → Option BencodeObj}
    {k : MnetIdentityKeys} {f : File} (hread : read f = none) :
    mnetIdentityKeysRead code read k f = .ok (-1, k) := by
  simp only [mnetIdentityKeysRead, mnetIdentityKeysReadBy, decodedFiles, hread]
  rfl

theorem mnetIdentityKeysRead_of_some {code : EddsaCode} {read : File → Option BencodeObj}
    {k : MnetIdentityKeys} {f : File} {benc : BencodeObj} (hread : read f = some benc) :
    mnetIdentityKeysRead code read k f = (do
      if bencodeObjIsDict benc then
        let ctx ← iterDict benc (mnetIdentityKeysIterDict code) mnetKeysIterCtxNew
        releaseDecoded ctx.released
        .ok (if ctx.success then 1 else 0, ctx.k)
      else
        releaseDecoded false
        .ok (0, k)) := by
  simp only [mnetIdentityKeysRead, mnetIdentityKeysReadBy, decodedFiles, hread]
  rfl

end Files

end I2pLite.Keys

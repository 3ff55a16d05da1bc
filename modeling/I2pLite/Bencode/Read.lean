import I2pLite.Core.CInt
import I2pLite.Core.Numeral
import I2pLite.Core.Stdio
import I2pLite.Bencode.Object

/-!
# Reading a bencode object

`bencode_read_file` and the functions it reads strings, dict items and lists
with.  The running count of a read is also its error flag, and the loops go on
after an error.
-/

namespace I2pLite.Read

open I2pLite.CRun
open I2pLite.CBytes
open I2pLite.CInt
open I2pLite.Decimal
open I2pLite.Numeral
open I2pLite.Stdio
open I2pLite.BencodeObject

/-- `bencode_obj_read_ctx_t`. -/
structure ReadCtx where
  f : InFile
  read : ℤ

/-- `strncpy` to an offset of a buffer. -/
def strncpy (dest : List Byte) (offset : ℕ) (src : List Byte) (size : ℕ) : List Byte :=
  dest.take offset ++ (src ++ List.replicate size 0).take size ++ dest.drop (offset + size)

/-- From the line that `getdelim` delivers, `slen` and the number of bytes
that the string is read with. -/
def lineLength (prefixByte : Byte) (line : List Byte) : Run (ℤ × ℤ) :=
  let line := ofBuffer line
  let slen := toInt32 (strlen line)
  -- `line[slen - sizeof(char)] = 0`
  if slen ≤ 0 then .error .outOfBounds
  else do
    let line := line.bytes.take (slen - 1).toNat
    let numbuf := (List.replicate 32 0).set 0 prefixByte
    let numbuf := strncpy numbuf 1 line 31
    -- `strncpy` returns its destination, so `num` is behind the first digit
    let num := numbuf.drop 1
    let sz ← atoi num
    .ok (slen, sz)

def bencodeReadStr (prefixByte : Byte) (ctx : ReadCtx) : Run (Option BencodeObj × ReadCtx) :=
  match getdelim (ch ':') ctx.f with
  | (none, f) => .ok (none, { f := f, read := -1 })
  | (some line, f) => do
      let (slen, sz) ← lineLength prefixByte line
      if 0 ≤ sz then
        if sz ≠ 0 then
          let ((count, data), f) := freadItem sz.toNat f
          if (count : ℤ) = sz then
            .ok (some (bencodeObjStr data), { f := f, read := ctx.read + slen + sz })
          else .ok (none, { f := f, read := -1 })
        else .ok (some (bencodeObjStr []), { f := f, read := ctx.read + slen })
      else .ok (none, { f := f, read := -1 })

/-- `o->str->data`, which is null for the empty string. -/
def strData : BencodeObj → Run (Option CString)
  | .str data => .ok (if data.length = 0 then none else some (ofBuffer data))
  | _ => .error .nullDeref

/-- What `_bencode_read` is to its callers: it takes a byte read before it, or
0, and leaves `*o` alone where it delivers `none`. -/
abbrev Reader := Byte → ReadCtx → Run (Option BencodeObj × ReadCtx)

/-- `if(ctx->read > 0) bencode_obj_dict_set(d, k->str->data, v)`. -/
def setIfRead (fuel : ℕ) (dict : BencodeObj) (k v : Option BencodeObj) (ctx : ReadCtx) :
    Run BencodeObj :=
  if ctx.read > 0 then do
    let key ← strData (← deref k)
    bencodeObjDictSet fuel dict key (← deref v)
  else .ok dict

def bencodeReadDictItem (read : Reader) (fuel : ℕ) (dict : BencodeObj) (prefixByte : Byte)
    (ctx : ReadCtx) : Run (BencodeObj × ReadCtx) := do
  let (k, ctx) ← bencodeReadStr prefixByte ctx
  if ctx.read < 0 then .ok (dict, ctx)
  else
    let (v, ctx) ← read 0 ctx
    let dict ← setIfRead fuel dict k v ctx
    freeIfSet (bencodeObjFree fuel) k
    freeIfSet (bencodeObjFree fuel) v
    .ok (dict, ctx)

/-- The node that a list item is appended with.  The item is released at once,
and the node still points at it. -/
def appendedItem : Option BencodeObj → ObjPtr BencodeObj
  | none => .null
  | some _ => .freed

/-- The list loop of `_bencode_read`. -/
def readListLoop (read : Reader) (release : ℕ) : ℕ → BencodeObj → ReadCtx →
    Run (BencodeObj × ReadCtx)
  | 0, _, _ => .error .outOfFuel
  | fuel + 1, list, ctx =>
      match fgetc ctx.f with
      | (none, f) => .ok (list, { f := f, read := -1 })
      | (some c, f) =>
          if c = ch 'e' then .ok (list, { f := f, read := ctx.read })
          else do
            let (li, ctx) ← read c { f := f, read := ctx.read + 1 }
            let list ← bencodeObjListAppend list (appendedItem li)
            freeIfSet (bencodeObjFree release) li
            readListLoop read release fuel list ctx

/-- The dict loop of `_bencode_read`. -/
def readDictLoop (read : Reader) (release : ℕ) : ℕ → BencodeObj → ReadCtx →
    Run (BencodeObj × ReadCtx)
  | 0, _, _ => .error .outOfFuel
  | fuel + 1, dict, ctx =>
      match fgetc ctx.f with
      | (none, f) => .ok (dict, { f := f, read := -1 })
      | (some c, f) =>
          if c = ch 'e' then .ok (dict, { f := f, read := ctx.read })
          else do
            let (dict, ctx) ←
              bencodeReadDictItem read release dict c { f := f, read := ctx.read + 1 }
            readDictLoop read release fuel dict ctx

/-- What `_bencode_read` does with the byte it dispatches on. -/
def dispatch (read : Reader) (fuel : ℕ) (c : Option Byte) (ctx : ReadCtx) :
    Run (Option BencodeObj × ReadCtx) :=
  match c with
  | none => .ok (none, { f := ctx.f, read := -1 })
  | some byte =>
      if byte = ch 'l' then do
        let (list, ctx) ← readListLoop read fuel fuel bencodeObjList ctx
        .ok (some list, ctx)
      else if byte = ch 'd' then do
        let (dict, ctx) ← readDictLoop read fuel fuel bencodeObjDict ctx
        .ok (some dict, ctx)
      else if isDigit byte then bencodeReadStr byte ctx
      else .ok (none, { f := ctx.f, read := -1 })

def bencodeRead : ℕ → Reader
  | 0, _, _ => .error .outOfFuel
  | fuel + 1, prefixByte, ctx =>
      if prefixByte ≠ 0 then dispatch (bencodeRead fuel) fuel (some prefixByte) ctx
      else
        let (c, f) := fgetc ctx.f
        dispatch (bencodeRead fuel) fuel c { f := f, read := ctx.read + 1 }

/-- The count that is returned, the object, and what is left of the file. -/
def bencodeReadFile (fuel : ℕ) (f : InFile) : Run (ℤ × Option BencodeObj × InFile) := do
  let (o, ctx) ← bencodeRead fuel 0 { f := f, read := 0 }
  .ok (ctx.read, o, ctx.f)

end I2pLite.Read

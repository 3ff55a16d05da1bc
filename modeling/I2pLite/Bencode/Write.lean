import I2pLite.Core.Bencoding
import I2pLite.Core.Stdio
import I2pLite.Bencode.Denotation

/-!
# Writing a bencode object

`bencode_write_file` and the callbacks it walks dicts and lists with.  The
running count of a write is also its error flag: -1 stops every further object.
Where no call of the C library fails, an object without lists is written as an
encoding of the value it denotes.
-/

namespace I2pLite.Write

open I2pLite.CRun
open I2pLite.CBytes
open I2pLite.Decimal
open I2pLite.Stdio
open I2pLite.Bencoding
open I2pLite.BencodeObject
open I2pLite.Denotation

/-- `bencode_obj_write_ctx_t`. -/
structure WriteCtx where
  f : OutFile
  written : ℤ

/-- The count after a call that returned `res` for `size` bytes. -/
def WriteCtx.after (ctx : WriteCtx) (res size : ℤ) (f : OutFile) : WriteCtx :=
  { f := f, written := if res < 0 then -1 else ctx.written + size }

/-- The result of `_bencode_write_string`: a length, or -1. -/
def bencodeWriteString (f : OutFile) (data : List Byte) : ℤ × OutFile :=
  let (res, f) := fprintf f (decimal data.length)
  if res < 0 then (-1, f)
  else
    let (put, f) := fputc (ch ':') f
    if put < 0 then (-1, f)
    else
      let res := res + 1
      if data.length = 0 then (res, f)
      else
        let (count, f) := fwrite data f
        if count ≠ data.length then (-1, f)
        else (res + data.length, f)

def bencodeDictWrite (write : ObjPtr BencodeObj → WriteCtx → Run WriteCtx) (key : CString)
    (val : BencodeObj) (ctx : WriteCtx) : Run WriteCtx :=
  let (res, f) := bencodeWriteString ctx.f key.bytes
  if res < 0 then .ok { f := f, written := -1 }
  else write (.live val) { f := f, written := ctx.written + res }

def bencodeListWrite (write : ObjPtr BencodeObj → WriteCtx → Run WriteCtx)
    (item : ObjPtr BencodeObj) (ctx : WriteCtx) : Run WriteCtx :=
  write item ctx

/-- The letter that opens a dict or a list, and the walk behind it. -/
def openWith (letter : Byte) (walk : WriteCtx → Run WriteCtx) (ctx : WriteCtx) : Run WriteCtx :=
  let (res, f) := fputc letter ctx.f
  if res < 0 then .ok { f := f, written := -1 }
  else walk { f := f, written := ctx.written + 1 }

/-- The terminator, which is left out after an error. -/
def terminate (ctx : WriteCtx) : WriteCtx :=
  if ctx.written > 0 then
    let (res, f) := fputc (ch 'e') ctx.f
    ctx.after res 1 f
  else ctx

def bencodeWrite : ℕ → ObjPtr BencodeObj → WriteCtx → Run WriteCtx
  | 0, _, _ => .error .outOfFuel
  | fuel + 1, o, ctx =>
      if ctx.written = -1 then .ok ctx
      else do
        let obj ← objOf o
        match bencodeObjGetstr obj with
        | none => do
            let ctx ←
              match bencodeObjGetint obj with
              | some value =>
                  let (res, f) := fprintf ctx.f (ch 'i' :: signedDecimal value.toInt)
                  .ok (ctx.after res res f)
              | none =>
                  if bencodeObjIsDict obj then
                    openWith (ch 'd') (bencodeObjIterDict fuel obj
                      (bencodeDictWrite (bencodeWrite fuel))) ctx
                  else if bencodeObjIsList obj then
                    openWith (ch 'l') (bencodeObjIterList obj
                      (bencodeListWrite (bencodeWrite fuel))) ctx
                  else .ok ctx
            .ok (terminate ctx)
        | some data =>
            let (res, f) := bencodeWriteString ctx.f data
            .ok (ctx.after res res f)

def bencodeWriteFile (fuel : ℕ) (o : ObjPtr BencodeObj) (f : OutFile) : Run (ℤ × OutFile) := do
  let ctx ← bencodeWrite fuel o { f := f, written := 0 }
  .ok (ctx.written, ctx.f)

section Kinds

variable {fuel : ℕ} {ctx : WriteCtx}

theorem bencodeWrite_str (hwritten : ctx.written ≠ -1) (data : List Byte) :
    bencodeWrite (fuel + 1) (.live (.str data)) ctx =
      .ok (ctx.after (bencodeWriteString ctx.f data).1 (bencodeWriteString ctx.f data).1
        (bencodeWriteString ctx.f data).2) := by
  simp [bencodeWrite, hwritten, objOf, bencodeObjGetstr]

theorem bencodeWrite_integer (hwritten : ctx.written ≠ -1) (value : Int64) :
    bencodeWrite (fuel + 1) (.live (.integer value)) ctx =
      .ok (terminate (ctx.after (fprintf ctx.f (ch 'i' :: signedDecimal value.toInt)).1
        (fprintf ctx.f (ch 'i' :: signedDecimal value.toInt)).1
        (fprintf ctx.f (ch 'i' :: signedDecimal value.toInt)).2)) := by
  simp [bencodeWrite, hwritten, objOf, bencodeObjGetstr, bencodeObjGetint]

theorem bencodeWrite_dict (hwritten : ctx.written ≠ -1) (nodes : DictStore) :
    bencodeWrite (fuel + 1) (.live (.dict nodes)) ctx =
      openWith (ch 'd') (bencodeObjIterDict fuel (.dict nodes)
        (bencodeDictWrite (bencodeWrite fuel))) ctx >>= fun ctx => .ok (terminate ctx) := by
  simp [bencodeWrite, hwritten, objOf, bencodeObjGetstr, bencodeObjGetint, bencodeObjIsDict]

theorem bencodeWrite_list (hwritten : ctx.written ≠ -1) (vals : List (ObjPtr BencodeObj)) :
    bencodeWrite (fuel + 1) (.live (.list vals)) ctx =
      openWith (ch 'l') (bencodeObjIterList (.list vals)
        (bencodeListWrite (bencodeWrite fuel))) ctx >>= fun ctx => .ok (terminate ctx) := by
  simp [bencodeWrite, hwritten, objOf, bencodeObjGetstr, bencodeObjGetint, bencodeObjIsDict,
    bencodeObjIsList]

end Kinds

/-! ## Writing without a failure -/

/-- No call fails, and none has failed. -/
structure Ready (ctx : WriteCtx) : Prop where
  neverFails : ctx.f.NeverFails
  written : 0 ≤ ctx.written

theorem Ready.written_ne {ctx : WriteCtx} (hready : Ready ctx) : ctx.written ≠ -1 := by
  have := hready.written
  omega

/-- From one state to the other, `data` has been written and counted. -/
structure Wrote (data : List Byte) (ctx ctx' : WriteCtx) : Prop where
  bytes : ctx'.f.bytes = ctx.f.bytes ++ data
  written : ctx'.written = ctx.written + data.length
  fails : ctx'.f.fails = ctx.f.fails

theorem Wrote.nil (ctx : WriteCtx) : Wrote [] ctx ctx where
  bytes := by simp
  written := by simp
  fails := rfl

theorem Wrote.trans {data more : List Byte} {ctx ctx' ctx'' : WriteCtx}
    (hfirst : Wrote data ctx ctx') (hsecond : Wrote more ctx' ctx'') :
    Wrote (data ++ more) ctx ctx'' where
  bytes := by rw [hsecond.bytes, hfirst.bytes, List.append_assoc]
  written := by
    rw [hsecond.written, hfirst.written, List.length_append]
    omega
  fails := hsecond.fails.trans hfirst.fails

theorem Wrote.ready {data : List Byte} {ctx ctx' : WriteCtx} (hwrote : Wrote data ctx ctx')
    (hready : Ready ctx) : Ready ctx' where
  neverFails := by
    rw [OutFile.NeverFails, hwrote.fails]
    exact hready.neverFails
  written := by
    have := hready.written
    rw [hwrote.written]
    omega

theorem Ready.wrote_put {ctx : WriteCtx} (hready : Ready ctx) (data : List Byte) :
    Wrote data ctx { f := ctx.f.put data, written := ctx.written + data.length } where
  bytes := hready.neverFails.put_bytes data
  written := rfl
  fails := rfl

theorem bencodeWriteString_eq {f : OutFile} (hf : f.NeverFails) (data : List Byte) :
    ∃ f', bencodeWriteString f data = (((encodeStr data).length : ℤ), f') ∧
      f'.bytes = f.bytes ++ encodeStr data ∧ f'.fails = f.fails := by
  have hnumeral := hf.put (decimal data.length)
  have hcolon := hnumeral.put [ch ':']
  have hlength : ¬ ((decimal data.length).length : ℤ) < 0 := by omega
  have hbyte : ¬ ((ch ':').toNat : ℤ) < 0 := by omega
  simp only [bencodeWriteString, hf.fprintf_eq, hnumeral.fputc_eq, hcolon.fwrite_eq, if_neg hlength,
    if_neg hbyte, ne_eq, not_true_eq_false, if_false]
  by_cases hempty : data = []
  · refine ⟨(f.put (decimal data.length)).put [ch ':'], ?_, ?_, rfl⟩
    · simp [hempty, encodeStr]
    · rw [hnumeral.put_bytes, hf.put_bytes, hempty, List.append_assoc]
      rfl
  · refine ⟨((f.put (decimal data.length)).put [ch ':']).put data, ?_, ?_, rfl⟩
    · rw [if_neg (by simpa using hempty), encodeStr, List.length_append, List.length_cons]
      push_cast
      ring_nf
    · rw [hcolon.put_bytes, hnumeral.put_bytes, hf.put_bytes, encodeStr, List.append_assoc,
        List.append_assoc, List.singleton_append]

theorem Ready.bencodeWriteString {ctx : WriteCtx} (hready : Ready ctx) (data : List Byte) :
    ∃ f', Write.bencodeWriteString ctx.f data = (((encodeStr data).length : ℤ), f') ∧
      Wrote (encodeStr data) ctx { f := f', written := ctx.written + (encodeStr data).length } := by
  obtain ⟨f', hcall, hbytes, hfails⟩ := bencodeWriteString_eq hready.neverFails data
  exact ⟨f', hcall, hbytes, rfl, hfails⟩

theorem Ready.openWith {ctx : WriteCtx} (hready : Ready ctx) (letter : Byte)
    (walk : WriteCtx → Run WriteCtx) :
    ∃ ctx', Wrote [letter] ctx ctx' ∧ openWith letter walk ctx = walk ctx' := by
  refine ⟨_, hready.wrote_put [letter], ?_⟩
  have hbyte : ¬ (letter.toNat : ℤ) < 0 := by omega
  simp [Write.openWith, hready.neverFails.fputc_eq, hbyte]

theorem Ready.terminate {ctx : WriteCtx} (hready : Ready ctx) (hpos : 0 < ctx.written) :
    Wrote [ch 'e'] ctx (terminate ctx) := by
  have hbyte : ¬ ((ch 'e').toNat : ℤ) < 0 := by omega
  rw [Write.terminate, if_pos hpos, hready.neverFails.fputc_eq]
  simp only [WriteCtx.after, if_neg hbyte]
  exact hready.wrote_put [ch 'e']

theorem Ready.wrote_str {ctx : WriteCtx} (hready : Ready ctx) (data : List Byte) :
    Wrote (encodeStr data) ctx (ctx.after (Write.bencodeWriteString ctx.f data).1
      (Write.bencodeWriteString ctx.f data).1 (Write.bencodeWriteString ctx.f data).2) := by
  obtain ⟨f', hcall, hwrote⟩ := hready.bencodeWriteString data
  have hlength : ¬ ((encodeStr data).length : ℤ) < 0 := by omega
  rw [hcall]
  simpa only [WriteCtx.after, if_neg hlength] using hwrote

theorem Ready.wrote_integer {ctx : WriteCtx} (hready : Ready ctx) (value : Int64) :
    Wrote (ch 'i' :: (signedDecimal value.toInt ++ [ch 'e'])) ctx
      (Write.terminate (ctx.after (fprintf ctx.f (ch 'i' :: signedDecimal value.toInt)).1
        (fprintf ctx.f (ch 'i' :: signedDecimal value.toInt)).1
        (fprintf ctx.f (ch 'i' :: signedDecimal value.toInt)).2)) := by
  have hnumeral := hready.wrote_put (ch 'i' :: signedDecimal value.toInt)
  have hlength : ¬ ((ch 'i' :: signedDecimal value.toInt).length : ℤ) < 0 := by omega
  have hpos : 0 < ctx.written + ((ch 'i' :: signedDecimal value.toInt).length : ℤ) := by
    have := hready.written
    rw [List.length_cons]
    omega
  rw [hready.neverFails.fprintf_eq]
  simp only [WriteCtx.after, if_neg hlength]
  exact hnumeral.trans ((hnumeral.ready hready).terminate hpos)

/-! ### Any object -/

/-- The terminator is written or left out. -/
theorem Ready.exists_wrote_terminate {ctx : WriteCtx} (hready : Ready ctx) :
    ∃ data, Wrote data ctx (Write.terminate ctx) := by
  by_cases hpos : 0 < ctx.written
  · exact ⟨_, hready.terminate hpos⟩
  · rw [Write.terminate, if_neg hpos]
    exact ⟨[], .nil ctx⟩

/-- A step that counts what it writes. -/
def Writing (step : WriteCtx → Run WriteCtx) : Prop :=
  ∀ ctx ctx', Ready ctx → step ctx = .ok ctx' → ∃ data, Wrote data ctx ctx'

theorem writing_ok : Writing .ok := by
  intro ctx ctx' _ hstep
  obtain rfl := Except.ok.inj hstep
  exact ⟨[], .nil ctx⟩

theorem Writing.bind {first second : WriteCtx → Run WriteCtx} (hfirst : Writing first)
    (hsecond : Writing second) : Writing (fun ctx => first ctx >>= second) := by
  intro ctx ctx' hready hstep
  obtain ⟨middle, hmiddle, hlast⟩ := bind_eq_ok.mp hstep
  obtain ⟨data, hdata⟩ := hfirst _ _ hready hmiddle
  obtain ⟨more, hmore⟩ := hsecond _ _ (hdata.ready hready) hlast
  exact ⟨_, hdata.trans hmore⟩

theorem iterDictFrom_writing {nodes : DictStore}
    {visit : CString → BencodeObj → WriteCtx → Run WriteCtx}
    (hvisit : ∀ key val, Writing (visit key val)) (fuel : ℕ) (start : Option ℕ) :
    Writing (iterDictFrom nodes visit fuel start) := by
  induction fuel generalizing start with
  | zero =>
      cases start with
      | none => exact writing_ok
      | some index =>
          intro ctx ctx' _ hwalk
          simp [iterDictFrom] at hwalk
  | succ fuel ih =>
      cases start with
      | none => exact writing_ok
      | some index =>
          intro ctx ctx' hready hwalk
          obtain ⟨node, _, hwalk⟩ := bind_eq_ok.mp hwalk
          dsimp only at hwalk
          split at hwalk
          · exact Writing.bind (hvisit _ _) (ih node.next) ctx ctx' hready hwalk
          · exact ih node.next ctx ctx' hready hwalk

theorem bencodeObjIterDict_writing {visit : CString → BencodeObj → WriteCtx → Run WriteCtx}
    (hvisit : ∀ key val, Writing (visit key val)) (fuel : ℕ) (obj : BencodeObj) :
    Writing (bencodeObjIterDict fuel obj visit) := by
  cases obj with
  | dict nodes => exact iterDictFrom_writing hvisit fuel (some 0)
  | _ => exact writing_ok

theorem bencodeObjIterList_writing {visit : ObjPtr BencodeObj → WriteCtx → Run WriteCtx}
    (hvisit : ∀ item, Writing (visit item)) (obj : BencodeObj) :
    Writing (bencodeObjIterList obj visit) := by
  cases obj with
  | list vals =>
      change Writing (fun ctx => vals.foldlM (fun ctx val => visit val ctx) ctx)
      induction vals with
      | nil => exact writing_ok
      | cons val vals ih =>
          simp only [List.foldlM_cons]
          exact Writing.bind (hvisit val) ih
  | _ => exact writing_ok

theorem bencodeDictWrite_writing {write : ObjPtr BencodeObj → WriteCtx → Run WriteCtx}
    (hwrite : ∀ o, Writing (write o)) (key : CString) (val : BencodeObj) :
    Writing (bencodeDictWrite write key val) := by
  intro ctx ctx' hready hstep
  obtain ⟨f', hcall, hkey⟩ := hready.bencodeWriteString key.bytes
  have hlength : ¬ ((encodeStr key.bytes).length : ℤ) < 0 := by omega
  simp only [bencodeDictWrite, hcall, if_neg hlength] at hstep
  obtain ⟨data, hdata⟩ := hwrite _ _ _ (hkey.ready hready) hstep
  exact ⟨_, hkey.trans hdata⟩

/-- An opening letter, what the walk writes, and perhaps the terminator. -/
theorem exists_wrote_opened {letter : Byte} {walk : WriteCtx → Run WriteCtx} {ctx ctx' : WriteCtx}
    (hwalk : Writing walk) (hready : Ready ctx)
    (hcall : (openWith letter walk ctx >>= fun ctx => .ok (terminate ctx)) = .ok ctx') :
    ∃ data, Wrote (letter :: data) ctx ctx' := by
  obtain ⟨walked, hopen, hend⟩ := bind_eq_ok.mp hcall
  obtain rfl := Except.ok.inj hend
  obtain ⟨opened, hopened, heq⟩ := hready.openWith letter walk
  rw [heq] at hopen
  obtain ⟨data, hdata⟩ := hwalk _ _ (hopened.ready hready) hopen
  obtain ⟨more, hmore⟩ :=
    ((hdata.ready (hopened.ready hready))).exists_wrote_terminate
  exact ⟨_, hopened.trans (hdata.trans hmore)⟩

/-- Without a failing call, a write counts every byte that it emits. -/
theorem bencodeWrite_writing (fuel : ℕ) (o : ObjPtr BencodeObj) :
    Writing (bencodeWrite fuel o) := by
  induction fuel generalizing o with
  | zero =>
      intro ctx ctx' _ hwrite
      simp [bencodeWrite] at hwrite
  | succ fuel ih =>
      intro ctx ctx' hready hwrite
      cases o with
      | null => simp [bencodeWrite, hready.written_ne, objOf] at hwrite
      | freed => simp [bencodeWrite, hready.written_ne, objOf] at hwrite
      | live obj =>
          cases obj with
          | str data =>
              rw [bencodeWrite_str hready.written_ne] at hwrite
              obtain rfl := Except.ok.inj hwrite
              exact ⟨_, hready.wrote_str data⟩
          | integer value =>
              rw [bencodeWrite_integer hready.written_ne] at hwrite
              obtain rfl := Except.ok.inj hwrite
              exact ⟨_, hready.wrote_integer value⟩
          | dict nodes =>
              rw [bencodeWrite_dict hready.written_ne] at hwrite
              obtain ⟨data, hdata⟩ := exists_wrote_opened
                (bencodeObjIterDict_writing (bencodeDictWrite_writing ih) fuel _) hready hwrite
              exact ⟨_, hdata⟩
          | list vals =>
              rw [bencodeWrite_list hready.written_ne] at hwrite
              obtain ⟨data, hdata⟩ := exists_wrote_opened
                (bencodeObjIterList_writing ih _) hready hwrite
              exact ⟨_, hdata⟩

/-! ### Objects without lists -/

/-- No list at any depth. -/
inductive ListFree : BencodeValue → Prop
  | str (data : List Byte) : ListFree (.str data)
  | int (value : ℤ) : ListFree (.int value)
  | dict {entries : List (List Byte × BencodeValue)} :
      (∀ entry ∈ entries, ListFree entry.2) → ListFree (.dict entries)

/-- With this much fuel, every object that denotes the value is written. -/
def WrittenWithin (bound : ℕ) (value : BencodeValue) : Prop :=
  ∀ fuel obj ctx, bound ≤ fuel → Denotes value obj → Ready ctx →
    ∃ ctx', bencodeWrite fuel (.live obj) ctx = .ok ctx' ∧ Wrote (encode value) ctx ctx'

theorem exists_writtenWithin_entries {entries : List (List Byte × BencodeValue)}
    (hentries : ∀ entry ∈ entries, ∃ bound, WrittenWithin bound entry.2) :
    ∃ bound, ∀ entry ∈ entries, WrittenWithin bound entry.2 :=
  exists_commonBound (fun _ _ _ hmore hwithin fuel obj ctx hfuel =>
    hwithin fuel obj ctx (hmore.trans hfuel)) hentries

/-- The dict walk writes the entries in chain order. -/
theorem foldlM_bencodeDictWrite {entries : List (List Byte × BencodeValue)}
    {held : List (CString × BencodeObj)} {bound fuel : ℕ} {ctx : WriteCtx}
    (hentries : ∀ entry ∈ entries, WrittenWithin bound entry.2) (hfuel : bound ≤ fuel)
    (hheld : DenotesEntries entries held) (hready : Ready ctx) :
    ∃ ctx', held.foldlM (fun ctx entry =>
        bencodeDictWrite (bencodeWrite fuel) entry.1 entry.2 ctx) ctx = .ok ctx' ∧
      Wrote (encodeEntries entries) ctx ctx' := by
  induction entries generalizing held ctx with
  | nil =>
      obtain rfl := hheld
      exact ⟨ctx, rfl, .nil ctx⟩
  | cons entry entries ih =>
      obtain ⟨key, value⟩ := entry
      obtain ⟨name, obj, rest, rfl, rfl, hobj, hrest⟩ := hheld
      obtain ⟨f', hcall, hname⟩ := hready.bencodeWriteString name.bytes
      have hlength : ¬ ((encodeStr name.bytes).length : ℤ) < 0 := by omega
      obtain ⟨middle, hwrite, hvalue⟩ :=
        hentries _ List.mem_cons_self fuel obj _ hfuel hobj (hname.ready hready)
      obtain ⟨ctx', hwalk, hothers⟩ := ih (fun entry hentry => hentries entry (by simp [hentry]))
        hrest (hvalue.ready (hname.ready hready))
      refine ⟨ctx', ?_, hname.trans (hvalue.trans hothers)⟩
      rw [List.foldlM_cons]
      have hvisit : bencodeDictWrite (bencodeWrite fuel) name obj ctx = .ok middle := by
        simpa only [bencodeDictWrite, hcall, if_neg hlength] using hwrite
      rw [hvisit, ok_bind]
      exact hwalk

/-- An object without lists is written as the encoding of its value. -/
theorem ListFree.exists_writtenWithin {value : BencodeValue} (hlistFree : ListFree value) :
    ∃ bound, WrittenWithin bound value := by
  induction hlistFree with
  | str data =>
      refine ⟨1, fun fuel obj ctx hfuel hobj hready => ?_⟩
      obtain ⟨fuel, rfl⟩ := Nat.exists_eq_add_of_le' hfuel
      obtain rfl : obj = .str data := hobj
      exact ⟨_, bencodeWrite_str hready.written_ne data, hready.wrote_str data⟩
  | int value =>
      refine ⟨1, fun fuel obj ctx hfuel hobj hready => ?_⟩
      obtain ⟨fuel, rfl⟩ := Nat.exists_eq_add_of_le' hfuel
      obtain ⟨stored, rfl, rfl⟩ := hobj
      exact ⟨_, bencodeWrite_integer hready.written_ne stored, hready.wrote_integer stored⟩
  | @dict entries _ ih =>
      obtain ⟨bound, hbound⟩ := exists_writtenWithin_entries ih
      refine ⟨max bound (entries.length + 1) + 1, fun fuel obj ctx hfuel hobj hready => ?_⟩
      obtain ⟨fuel, rfl⟩ := Nat.exists_eq_add_of_le' (show 1 ≤ fuel by omega)
      obtain ⟨held, hholds, hheld⟩ := hobj
      have hturns : held.length < fuel := by
        rw [hheld.length_eq]
        omega
      obtain ⟨opened, hopened, hopen⟩ := hready.openWith (ch 'd')
        (bencodeObjIterDict fuel obj (bencodeDictWrite (bencodeWrite fuel)))
      obtain ⟨walked, hwalk, hentries⟩ := foldlM_bencodeDictWrite hbound
        (show bound ≤ fuel by omega) hheld (hopened.ready hready)
      have hpos : 0 < walked.written := by
        have := hready.written
        rw [hentries.written, hopened.written, List.length_singleton]
        omega
      have hend := (hentries.ready (hopened.ready hready)).terminate hpos
      refine ⟨_, ?_, hopened.trans (hentries.trans hend)⟩
      obtain ⟨nodes, _, _, rfl, _⟩ := id hholds
      rw [bencodeWrite_dict hready.written_ne, hopen, bencodeObjIterDict_holds hholds hturns, hwalk,
        ok_bind]

/-- Without a failing call, an object without lists is written as bytes that
decode, in front of any suffix, to its value and to nothing else, and the
returned count is their number. -/
theorem bencodeWriteFile_uniquely_decodable {value : BencodeValue} {obj : BencodeObj} {f : OutFile}
    (hlistFree : ListFree value) (hdenotes : Denotes value obj) (hf : f.NeverFails) :
    ∃ data bound, (∀ fuel, bound ≤ fuel → ∃ f',
        bencodeWriteFile fuel (.live obj) f = .ok (data.length, f') ∧
        f'.bytes = f.bytes ++ data) ∧
      ∀ rest value' rest', Parses (data ++ rest) (.value value') rest' ↔
        value' = value ∧ rest' = rest := by
  obtain ⟨bound, hbound⟩ := hlistFree.exists_writtenWithin
  refine ⟨encode value, bound, fun fuel hfuel => ?_, fun rest value' rest' =>
    (encodes_encode value).parses_iff⟩
  obtain ⟨ctx', hwrite, hwrote⟩ :=
    hbound fuel obj { f := f, written := 0 } hfuel hdenotes ⟨hf, le_rfl⟩
  refine ⟨ctx'.f, ?_, hwrote.bytes⟩
  rw [bencodeWriteFile, hwrite, ok_bind, hwrote.written, zero_add]

theorem noNul_a : ∀ byte ∈ [ch 'a'], byte ≠ 0 := List.forall_mem_singleton.mpr (by decide)

def keyOfInt : CString := ⟨[ch 'a'], noNul_a⟩

/-- The dict that binds `"a"` to -3, in memory. -/
def dictOfInt : BencodeObj :=
  .dict [{ next := some 1 }, { key := some keyOfInt, val := some (.integer (-3)) }]

theorem denotes_dictOfInt : Denotes (.dict [([ch 'a'], .int (-3))]) dictOfInt := by
  refine ⟨[(keyOfInt, .integer (-3))],
    ⟨_, _, [1], rfl, rfl, rfl, .cons rfl .nil, .cons ⟨_, rfl, rfl, rfl⟩ .nil⟩, ?_⟩
  exact ⟨_, _, _, rfl, rfl, ⟨_, rfl, by decide⟩, rfl⟩

theorem bencodeWriteFile_uniquely_decodable_dictOfInt :
    ∃ data bound, (∀ fuel, bound ≤ fuel → ∃ f',
        bencodeWriteFile fuel (.live dictOfInt) { fails := fun _ => none } =
          .ok (data.length, f') ∧ f'.bytes = [] ++ data) ∧
      ∀ rest value' rest', Parses (data ++ rest) (.value value') rest' ↔
        value' = .dict [([ch 'a'], .int (-3))] ∧ rest' = rest :=
  bencodeWriteFile_uniquely_decodable (.dict (by simpa using .int (-3))) denotes_dictOfInt
    (fun _ => rfl)

end I2pLite.Write

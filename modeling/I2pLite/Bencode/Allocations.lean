import I2pLite.Core.Counting
import I2pLite.Bencode.DictRun
import I2pLite.Bencode.ReadSound

/-!
# How many objects a read allocates

The code of the reader and of the clone once more, with a count of the calls of
`bencode_alloc`.  A value that is set in a dict is cloned, and the clone of a
dict clones each of its values twice.  So with every dict around it a value
costs twice as much, and a short file can make a read allocate any number of
objects.
-/

namespace I2pLite.Allocations

open I2pLite.CRun
open I2pLite.Counting
open I2pLite.CBytes
open I2pLite.Stdio
open I2pLite.Bencoding
open I2pLite.BencodeObject
open I2pLite.Denotation
open I2pLite.Clone
open I2pLite.DictRun (keyA)
open I2pLite.Read
open I2pLite.ReadSound (lineLength_digits)

/-! ## The code, with a count -/

section Code

/-- `bencode_obj_dict_set`, given what a clone does and counts. -/
def dictSetCounted (clone : BencodeObj → ℕ → Run (BencodeObj × ℕ)) (fuel : ℕ) (dict : BencodeObj)
    (key : Option CString) (val : BencodeObj) (count : ℕ) : Run (BencodeObj × ℕ) := do
  let (copy, count) ← clone val count
  let dict ← dictSetWith (fun _ => .ok copy) fuel dict key val
  .ok (dict, count)

def cloneCounted : ℕ → BencodeObj → ℕ → Run (BencodeObj × ℕ)
  | 0, _, _ => .error .outOfFuel
  | fuel + 1, .list vals, count =>
      bencodeObjIterList (.list vals)
        (fun val state => do
          let (valClone, count) ← cloneCounted fuel (← objOf val) state.2
          let copy ← bencodeObjListAppend state.1 (.live valClone)
          .ok (copy, count))
        (bencodeObjList, count + 1)
  | fuel + 1, .dict nodes, count =>
      bencodeObjIterDict fuel (.dict nodes)
        (fun key val state => do
          let (valClone, count) ← cloneCounted fuel val state.2
          dictSetCounted (cloneCounted fuel) fuel state.1 (some key) valClone count)
        (bencodeObjDict, count + 1)
  | _ + 1, .integer value, count => .ok (bencodeObjInt value, count + 1)
  | _ + 1, .str data, count => .ok (bencodeObjStr data, count + 1)

/-- A string is allocated exactly where one is delivered. -/
def readStrCounted (prefixByte : Byte) (ctx : ReadCtx) (count : ℕ) :
    Run ((Option BencodeObj × ReadCtx) × ℕ) := do
  let (o, ctx) ← bencodeReadStr prefixByte ctx
  .ok ((o, ctx), if o.isSome then count + 1 else count)

abbrev CountedReader := Byte → ReadCtx → ℕ → Run ((Option BencodeObj × ReadCtx) × ℕ)

def setIfReadCounted (fuel : ℕ) (dict : BencodeObj) (k v : Option BencodeObj) (ctx : ReadCtx)
    (count : ℕ) : Run (BencodeObj × ℕ) :=
  if ctx.read > 0 then do
    let key ← strData (← deref k)
    let v ← deref v
    dictSetCounted (cloneCounted fuel) fuel dict key v count
  else .ok (dict, count)

def readDictItemCounted (read : CountedReader) (fuel : ℕ) (dict : BencodeObj) (prefixByte : Byte)
    (ctx : ReadCtx) (count : ℕ) : Run ((BencodeObj × ReadCtx) × ℕ) := do
  let ((k, ctx), count) ← readStrCounted prefixByte ctx count
  if ctx.read < 0 then .ok ((dict, ctx), count)
  else
    let ((v, ctx), count) ← read 0 ctx count
    let (dict, count) ← setIfReadCounted fuel dict k v ctx count
    freeIfSet (bencodeObjFree fuel) k
    freeIfSet (bencodeObjFree fuel) v
    .ok ((dict, ctx), count)

def listLoopCounted (read : CountedReader) (release : ℕ) : ℕ → BencodeObj → ReadCtx → ℕ →
    Run ((BencodeObj × ReadCtx) × ℕ)
  | 0, _, _, _ => .error .outOfFuel
  | fuel + 1, list, ctx, count =>
      match fgetc ctx.f with
      | (none, f) => .ok ((list, { f := f, read := -1 }), count)
      | (some c, f) =>
          if c = ch 'e' then .ok ((list, { f := f, read := ctx.read }), count)
          else do
            let ((li, ctx), count) ← read c { f := f, read := ctx.read + 1 } count
            let list ← bencodeObjListAppend list (appendedItem li)
            freeIfSet (bencodeObjFree release) li
            listLoopCounted read release fuel list ctx count

def dictLoopCounted (read : CountedReader) (release : ℕ) : ℕ → BencodeObj → ReadCtx → ℕ →
    Run ((BencodeObj × ReadCtx) × ℕ)
  | 0, _, _, _ => .error .outOfFuel
  | fuel + 1, dict, ctx, count =>
      match fgetc ctx.f with
      | (none, f) => .ok ((dict, { f := f, read := -1 }), count)
      | (some c, f) =>
          if c = ch 'e' then .ok ((dict, { f := f, read := ctx.read }), count)
          else do
            let ((dict, ctx), count) ←
              readDictItemCounted read release dict c { f := f, read := ctx.read + 1 } count
            dictLoopCounted read release fuel dict ctx count

def dispatchCounted (read : CountedReader) (fuel : ℕ) (c : Option Byte) (ctx : ReadCtx)
    (count : ℕ) : Run ((Option BencodeObj × ReadCtx) × ℕ) :=
  match c with
  | none => .ok ((none, { f := ctx.f, read := -1 }), count)
  | some byte =>
      if byte = ch 'l' then do
        let ((list, ctx), count) ← listLoopCounted read fuel fuel bencodeObjList ctx (count + 1)
        .ok ((some list, ctx), count)
      else if byte = ch 'd' then do
        let ((dict, ctx), count) ← dictLoopCounted read fuel fuel bencodeObjDict ctx (count + 1)
        .ok ((some dict, ctx), count)
      else if Decimal.isDigit byte then readStrCounted byte ctx count
      else .ok ((none, { f := ctx.f, read := -1 }), count)

def readCounted : ℕ → CountedReader
  | 0, _, _, _ => .error .outOfFuel
  | fuel + 1, prefixByte, ctx, count =>
      if prefixByte ≠ 0 then dispatchCounted (readCounted fuel) fuel (some prefixByte) ctx count
      else
        let (c, f) := fgetc ctx.f
        dispatchCounted (readCounted fuel) fuel c { f := f, read := ctx.read + 1 } count

/-- What `bencode_read_file` delivers, and the number of objects allocated. -/
def readFileCounted (fuel : ℕ) (f : InFile) : Run ((ℤ × Option BencodeObj × InFile) × ℕ) := do
  let ((o, ctx), count) ← readCounted fuel 0 { f := f, read := 0 } 0
  .ok ((ctx.read, o, ctx.f), count)

end Code

/-! ## The count changes nothing -/

section Erase

theorem erases_dictSetCounted {clone : BencodeObj → Run BencodeObj}
    {counted : BencodeObj → ℕ → Run (BencodeObj × ℕ)}
    (hclone : ∀ obj count, Erases (counted obj count) (clone obj)) (fuel : ℕ) (dict : BencodeObj)
    (key : Option CString) (val : BencodeObj) (count : ℕ) :
    Erases (dictSetCounted counted fuel dict key val count)
      (dictSetWith clone fuel dict key val) := by
  have hset : dictSetWith clone fuel dict key val =
      clone val >>= fun copy => dictSetWith (fun _ => .ok copy) fuel dict key val := by
    rw [dictSetWith]
    cases clone val <;> rfl
  rw [hset]
  exact (hclone val count).bind fun copy count =>
    .counted (dictSetWith (fun _ => .ok copy) fuel dict key val) fun _ => count

theorem erases_iterDictFrom {S : Type} {nodes : DictStore}
    {visit : CString → BencodeObj → S × ℕ → Run (S × ℕ)}
    {visit' : CString → BencodeObj → S → Run S}
    (hvisit : ∀ key val user count, Erases (visit key val (user, count)) (visit' key val user))
    (fuel : ℕ) (start : Option ℕ) (user : S) (count : ℕ) :
    Erases (iterDictFrom nodes visit fuel start (user, count))
      (iterDictFrom nodes visit' fuel start user) := by
  induction fuel generalizing start user count with
  | zero => cases start <;> rfl
  | succ fuel ih =>
      cases start with
      | none => rfl
      | some index =>
          refine .step fun node => ?_
          dsimp only
          split
          · exact (hvisit _ _ user count).bind fun user count => ih node.next user count
          · exact ih node.next user count

theorem erases_cloneCounted (fuel : ℕ) (obj : BencodeObj) (count : ℕ) :
    Erases (cloneCounted fuel obj count) (bencodeObjClone fuel obj) := by
  induction fuel generalizing obj count with
  | zero => rfl
  | succ fuel ih =>
      cases obj with
      | list vals =>
          refine .foldlM (fun copy count val => .step fun obj => ?_) bencodeObjList (count + 1)
          exact (ih obj count).bind fun valClone count =>
            .counted (bencodeObjListAppend copy (.live valClone)) fun _ => count
      | dict nodes =>
          refine erases_iterDictFrom (fun key val copy count => ?_) fuel (some 0) bencodeObjDict
            (count + 1)
          refine (ih val count).bind fun valClone count => ?_
          exact erases_dictSetCounted ih fuel copy (some key) valClone count
      | integer value => rfl
      | str data => rfl

theorem erases_readStrCounted (prefixByte : Byte) (ctx : ReadCtx) (count : ℕ) :
    Erases (readStrCounted prefixByte ctx count) (bencodeReadStr prefixByte ctx) :=
  .counted (bencodeReadStr prefixByte ctx) fun result =>
    if result.1.isSome then count + 1 else count

theorem erases_setIfReadCounted (fuel : ℕ) (dict : BencodeObj) (k v : Option BencodeObj)
    (ctx : ReadCtx) (count : ℕ) :
    Erases (setIfReadCounted fuel dict k v ctx count) (setIfRead fuel dict k v ctx) := by
  refine .ite (.step fun obj => .step fun key => .step fun val => ?_) (.ok dict count)
  exact erases_dictSetCounted (erases_cloneCounted fuel) fuel dict key val count

section Reader

variable {read : CountedReader} {read' : Reader}

/-- A reader that counts, and one that does not. -/
def ErasesReader (read : CountedReader) (read' : Reader) : Prop :=
  ∀ prefixByte ctx count, Erases (read prefixByte ctx count) (read' prefixByte ctx)

theorem erases_readDictItemCounted (hread : ErasesReader read read') (fuel : ℕ)
    (dict : BencodeObj) (prefixByte : Byte) (ctx : ReadCtx) (count : ℕ) :
    Erases (readDictItemCounted read fuel dict prefixByte ctx count)
      (bencodeReadDictItem read' fuel dict prefixByte ctx) := by
  refine (erases_readStrCounted prefixByte ctx count).bind fun ⟨k, ctx⟩ count => ?_
  refine .ite (.ok _ _) ((hread 0 ctx count).bind fun ⟨v, ctx⟩ count => ?_)
  refine (erases_setIfReadCounted fuel dict k v ctx count).bind fun dict count => ?_
  exact .step fun _ => .step fun _ => .ok _ _

theorem erases_listLoopCounted (hread : ErasesReader read read') (release fuel : ℕ)
    (list : BencodeObj) (ctx : ReadCtx) (count : ℕ) :
    Erases (listLoopCounted read release fuel list ctx count)
      (readListLoop read' release fuel list ctx) := by
  induction fuel generalizing list ctx count with
  | zero => rfl
  | succ fuel ih =>
      rw [listLoopCounted, readListLoop]
      rcases fgetc ctx.f with ⟨_ | c, f⟩
      · rfl
      · refine .ite (.ok _ _) ((hread _ _ count).bind ?_)
        rintro ⟨li, ctx⟩ count
        exact .step fun list => .step fun _ => ih list ctx count

theorem erases_dictLoopCounted (hread : ErasesReader read read') (release fuel : ℕ)
    (dict : BencodeObj) (ctx : ReadCtx) (count : ℕ) :
    Erases (dictLoopCounted read release fuel dict ctx count)
      (readDictLoop read' release fuel dict ctx) := by
  induction fuel generalizing dict ctx count with
  | zero => rfl
  | succ fuel ih =>
      rw [dictLoopCounted, readDictLoop]
      rcases fgetc ctx.f with ⟨_ | c, f⟩
      · rfl
      · refine .ite (.ok _ _) ?_
        refine (erases_readDictItemCounted hread release dict _ _ count).bind ?_
        rintro ⟨dict, ctx⟩ count
        exact ih dict ctx count

theorem erases_dispatchCounted (hread : ErasesReader read read') (fuel : ℕ) (c : Option Byte)
    (ctx : ReadCtx) (count : ℕ) :
    Erases (dispatchCounted read fuel c ctx count) (dispatch read' fuel c ctx) := by
  cases c with
  | none => rfl
  | some byte =>
      refine .ite ?_ (.ite ?_ (.ite (erases_readStrCounted byte ctx count) (.ok _ _)))
      · exact (erases_listLoopCounted hread fuel fuel bencodeObjList ctx (count + 1)).bind
          fun ⟨list, ctx⟩ count => .ok _ _
      · exact (erases_dictLoopCounted hread fuel fuel bencodeObjDict ctx (count + 1)).bind
          fun ⟨dict, ctx⟩ count => .ok _ _

end Reader

theorem erases_readCounted (fuel : ℕ) : ErasesReader (readCounted fuel) (bencodeRead fuel) := by
  induction fuel with
  | zero => exact fun _ _ _ => rfl
  | succ fuel ih =>
      intro prefixByte ctx count
      exact .ite (erases_dispatchCounted ih fuel (some prefixByte) ctx count)
        (erases_dispatchCounted ih fuel _ _ count)

/-- The count is no part of what is read. -/
theorem erases_readFileCounted (fuel : ℕ) (f : InFile) :
    Erases (readFileCounted fuel f) (bencodeReadFile fuel f) :=
  (erases_readCounted fuel 0 { f := f, read := 0 } 0).bind fun _ _ => .ok _ _

end Erase

/-! ## Clones -/

section Clones

variable {n fuel count count' : ℕ} {value : BencodeValue} {obj copy : BencodeObj}

/-- A value inside so many dicts, none of which has another entry. -/
inductive Nested : ℕ → BencodeValue → Prop
  | str (data : List Byte) : Nested 0 (.str data)
  | int (value : ℤ) : Nested 0 (.int value)
  | empty : Nested 0 (.dict [])
  | single {n : ℕ} {key : List Byte} {value : BencodeValue} :
      Nested n value → Nested (n + 1) (.dict [(key, value)])

theorem Nested.flat (hnested : Nested n value) : FlatValue value := by
  induction hnested with
  | str data => exact .str data
  | int value => exact .int value
  | empty => exact .empty
  | single _ ih => exact .single ih

end Clones

/-- `n` dicts around an empty one, each with the key `a`. -/
def nestedBytes : ℕ → List Byte
  | 0 => [ch 'd', ch 'e']
  | n + 1 => ch 'd' :: ch '0' :: ch '1' :: ch ':' :: ch 'a' :: (nestedBytes n ++ [ch 'e'])

def nestedDict : ℕ → BencodeObj
  | 0 => bencodeObjDict
  | n + 1 => .dict [{ next := some 1 }, { key := some keyA, val := some (nestedDict n) }]

section NestedDicts

variable {fuel : ℕ}

theorem length_nestedBytes (n : ℕ) : (nestedBytes n).length = 6 * n + 2 := by
  induction n with
  | zero => rfl
  | succ n ih =>
      simp only [nestedBytes, List.length_cons, List.length_append, List.length_nil, ih]
      omega

theorem bencodeObjFree_nestedDict (n : ℕ) (hfuel : n + 3 ≤ fuel) :
    bencodeObjFree fuel (nestedDict n) = .ok () := by
  induction n generalizing fuel with
  | zero =>
      obtain ⟨fuel, rfl⟩ := Nat.exists_eq_add_of_le' hfuel
      rfl
  | succ n ih =>
      obtain ⟨fuel, rfl⟩ := Nat.exists_eq_add_of_le' (show 3 ≤ fuel by omega)
      have hval := @ih (fuel + 2) (by omega)
      simp [nestedDict, bencodeObjFree, freeDictFrom, nodeAt, freeIfSet, hval]

/-- The first entry of a fresh dict. -/
theorem dictSetWith_nestedDict (n : ℕ) (val : BencodeObj) :
    dictSetWith (fun _ => .ok (nestedDict n)) fuel bencodeObjDict (some keyA) val =
      .ok (nestedDict (n + 1)) := by
  cases fuel <;> rfl

theorem cloneCounted_nestedDict (n : ℕ) (hfuel : n + 3 ≤ fuel) (count : ℕ) :
    cloneCounted fuel (nestedDict n) count = .ok (nestedDict n, count + (2 ^ (n + 1) - 1)) := by
  induction n generalizing fuel count with
  | zero =>
      obtain ⟨fuel, rfl⟩ := Nat.exists_eq_add_of_le' hfuel
      rfl
  | succ n ih =>
      obtain ⟨fuel, rfl⟩ := Nat.exists_eq_add_of_le' (show 3 ≤ fuel by omega)
      have hval := @ih (fuel + 2) (by omega)
      have hcount : count + 1 + (2 ^ (n + 1) - 1) + (2 ^ (n + 1) - 1) =
          count + (2 ^ (n + 1 + 1) - 1) := by
        have hpos := Nat.two_pow_pos (n + 1)
        rw [Nat.pow_succ 2 (n + 1)]
        omega
      rw [← hcount]
      simp [nestedDict, cloneCounted, bencodeObjIterDict, iterDictFrom, nodeAt, dictSetCounted,
        hval, dictSetWith_nestedDict]

theorem bencodeReadStr_keyA (tail : List Byte) (read : ℤ) :
    bencodeReadStr (ch '0') { f := ch '1' :: ch ':' :: ch 'a' :: tail, read := read } =
      .ok (some (bencodeObjStr [ch 'a']), { f := tail, read := read + 2 + 1 }) := by
  have hline : getdelim (ch ':') (ch '1' :: ch ':' :: ch 'a' :: tail) =
      (some [ch '1', ch ':'], ch 'a' :: tail) :=
    @getdelim_append (ch ':') [ch '1'] (ch 'a' :: tail) (by decide)
  have hlength : lineLength (ch '0') [ch '1', ch ':'] = .ok (2, 1) := by
    have hdigits : lineLength (ch '0') ([ch '1'] ++ [ch ':']) = _ :=
      lineLength_digits (List.forall_mem_singleton.mpr rfl) (by simp)
    exact hdigits
  have hitem : freadItem 1 (ch 'a' :: tail) = ((1, [ch 'a']), tail) := by simp [freadItem]
  rw [bencodeReadStr]
  simp [hline, hlength, hitem]

/-- What the item of a dict adds, if its value is read. -/
theorem readDictItemCounted_nested {read : CountedReader} {n : ℕ} {tail rest : List Byte}
    {before behind : ℤ} {count count' : ℕ} (hfuel : n + 3 ≤ fuel) (hbehind : 0 < behind)
    (hbefore : 0 ≤ before)
    (hread : read 0 { f := tail, read := before + 2 + 1 } (count + 1) =
      .ok ((some (nestedDict n), { f := rest, read := behind }), count')) :
    readDictItemCounted read fuel bencodeObjDict (ch '0')
        { f := ch '1' :: ch ':' :: ch 'a' :: tail, read := before } count =
      .ok ((nestedDict (n + 1), { f := rest, read := behind }),
        count' + (2 ^ (n + 1) - 1)) := by
  have hset : setIfReadCounted fuel bencodeObjDict (some (bencodeObjStr [ch 'a']))
      (some (nestedDict n)) { f := rest, read := behind } count' =
        .ok (nestedDict (n + 1), count' + (2 ^ (n + 1) - 1)) := by
    have hkey : strData (bencodeObjStr [ch 'a']) = .ok (some keyA) := rfl
    rw [setIfReadCounted, if_pos hbehind, deref_some, ok_bind, hkey, ok_bind, deref_some, ok_bind,
      dictSetCounted, cloneCounted_nestedDict n hfuel, ok_bind]
    dsimp only
    rw [dictSetWith_nestedDict]
    rfl
  have hstr : readStrCounted (ch '0') { f := ch '1' :: ch ':' :: ch 'a' :: tail, read := before }
      count = .ok ((some (bencodeObjStr [ch 'a']), { f := tail, read := before + 2 + 1 }),
        count + 1) := by
    rw [readStrCounted, bencodeReadStr_keyA]
    rfl
  have hfreeKey : freeIfSet (bencodeObjFree fuel) (some (bencodeObjStr [ch 'a'])) = .ok () := by
    obtain ⟨fuel, rfl⟩ := Nat.exists_eq_add_of_le' (show 1 ≤ fuel by omega)
    rfl
  have hfreeVal : freeIfSet (bencodeObjFree fuel) (some (nestedDict n)) = .ok () :=
    bencodeObjFree_nestedDict n hfuel
  rw [readDictItemCounted, hstr, ok_bind]
  dsimp only
  rw [if_neg (show ¬ before + 2 + 1 < 0 by omega), hread, ok_bind]
  dsimp only
  rw [hset, ok_bind]
  dsimp only
  rw [hfreeKey, ok_bind, hfreeVal, ok_bind]

/-- In every reading, the dicts around an empty one take 5 bytes each, as they
are counted. -/
theorem readCounted_nestedBytes (n : ℕ) (hfuel : n + 4 ≤ fuel) (rest : List Byte) {before : ℤ}
    (hbefore : 0 ≤ before) (count : ℕ) :
    readCounted fuel 0 { f := nestedBytes n ++ rest, read := before } count =
      .ok ((some (nestedDict n), { f := rest, read := before + (5 * n + 1) }),
        count + (2 ^ (n + 1) + n - 1)) := by
  induction n generalizing fuel rest before count with
  | zero =>
      obtain ⟨fuel, rfl⟩ := Nat.exists_eq_add_of_le' hfuel
      rfl
  | succ n ih =>
      obtain ⟨fuel, rfl⟩ := Nat.exists_eq_add_of_le' (show 3 ≤ fuel by omega)
      have hread := @ih (fuel + 2) (by omega) (ch 'e' :: rest) (before + 1 + 1 + 2 + 1) (by omega)
        (count + 1 + 1)
      have hitem := @readDictItemCounted_nested (fuel + 2) (readCounted (fuel + 2)) n
        (nestedBytes n ++ ch 'e' :: rest) (ch 'e' :: rest) (before + 1 + 1)
        (before + 1 + 1 + 2 + 1 + (5 * n + 1)) (count + 1) _ (by omega) (by omega) (by omega) hread
      have hbehind : before + 1 + 1 + 2 + 1 + (5 * n + 1) = before + (5 * (n + 1 : ℕ) + 1) := by
        push_cast
        omega
      have hcount : count + 1 + 1 + (2 ^ (n + 1) + n - 1) + (2 ^ (n + 1) - 1) =
          count + (2 ^ (n + 1 + 1) + (n + 1) - 1) := by
        have hpos := Nat.two_pow_pos (n + 1)
        rw [Nat.pow_succ 2 (n + 1)]
        omega
      rw [hbehind, hcount] at hitem
      have hbytes : nestedBytes (n + 1) ++ rest = ch 'd' :: ch '0' :: ch '1' :: ch ':' :: ch 'a' ::
          (nestedBytes n ++ ch 'e' :: rest) := by
        simp [nestedBytes]
      have hloop : dictLoopCounted (readCounted (fuel + 2)) (fuel + 2) (fuel + 2) bencodeObjDict
          { f := ch '0' :: ch '1' :: ch ':' :: ch 'a' :: (nestedBytes n ++ ch 'e' :: rest),
            read := before + 1 } (count + 1) =
          .ok ((nestedDict (n + 1), { f := rest, read := before + (5 * (n + 1 : ℕ) + 1) }),
            count + (2 ^ (n + 1 + 1) + (n + 1) - 1)) := by
        rw [dictLoopCounted]
        change (readDictItemCounted _ _ _ _ _ _ >>= _) = _
        rw [hitem]
        rfl
      rw [hbytes]
      change (dictLoopCounted _ _ _ _ _ _ >>= _) = _
      rw [hloop]
      rfl

end NestedDicts

/-- A file of 6 * n + 2 bytes is read without an error into `n + 1` dicts, with
more than 2^(n+1) objects allocated on the way. -/
theorem bencodeReadFile_allocates (n fuel : ℕ) (hfuel : n + 4 ≤ fuel) :
    (nestedBytes n).length = 6 * n + 2 ∧
      bencodeReadFile fuel (nestedBytes n) = .ok (5 * n + 1, some (nestedDict n), []) ∧
      readFileCounted fuel (nestedBytes n) =
        .ok ((5 * n + 1, some (nestedDict n), []), 2 ^ (n + 1) + n - 1) := by
  have hread : readFileCounted fuel (nestedBytes n) =
      .ok ((5 * n + 1, some (nestedDict n), []), 2 ^ (n + 1) + n - 1) := by
    have hnested := @readCounted_nestedBytes fuel n hfuel [] 0 le_rfl 0
    rw [List.append_nil, Int.zero_add, Nat.zero_add] at hnested
    rw [readFileCounted, hnested]
    rfl
  exact ⟨length_nestedBytes n, (erases_readFileCounted fuel _).eq_ok_iff.mpr ⟨_, hread⟩, hread⟩

/-- 62 bytes, and 11 dicts. -/
theorem bencodeReadFile_allocates_ten :
    (nestedBytes 10).length = 62 ∧
      bencodeReadFile 14 (nestedBytes 10) = .ok (51, some (nestedDict 10), []) ∧
      readFileCounted 14 (nestedBytes 10) = .ok ((51, some (nestedDict 10), []), 2057) :=
  bencodeReadFile_allocates 10 14 le_rfl

end I2pLite.Allocations

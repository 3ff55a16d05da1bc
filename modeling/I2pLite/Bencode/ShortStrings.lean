import I2pLite.Bencode.ReadFrame

/-!
# What a read delivers has short strings

The reader takes a string for read only where it has at most one byte.  A dict
keeps copies of its values, so this holds at any depth: no entry of a dict that
was read has a name of two bytes or more.
-/

namespace I2pLite.ShortStrings

open I2pLite.CRun
open I2pLite.CBytes
open I2pLite.Stdio
open I2pLite.BencodeObject
open I2pLite.DictSet
open I2pLite.Read
open I2pLite.ReadCount
open I2pLite.ReadFrame

/-- No integer, no list item to follow, and no string or key of two bytes, at
any depth. -/
inductive Short : BencodeObj → Prop
  | list {vals : List (ObjPtr BencodeObj)} : (∀ val ∈ vals, val = .null ∨ val = .freed) →
      Short (.list vals)
  | dict {nodes : DictStore} : (∀ node ∈ nodes, ∀ key, node.key = some key → strlen key ≤ 1) →
      (∀ node ∈ nodes, ∀ val, node.val = some val → Short val) → Short (.dict nodes)
  | str {data : List Byte} : data.length ≤ 1 → Short (.str data)

/-- What is delivered, if anything is. -/
def ShortIfSet (o : Option BencodeObj) : Prop := ∀ obj, o = some obj → Short obj

theorem shortIfSet_none : ShortIfSet none := by
  intro obj hobj
  cases hobj

theorem shortIfSet_some {obj : BencodeObj} (hobj : Short obj) : ShortIfSet (some obj) := by
  intro other hother
  exact Option.some.inj hother ▸ hobj

theorem short_bencodeObjDict : Short bencodeObjDict := by
  refine .dict ?_ ?_
  · simp
  · simp

theorem short_bencodeObjList : Short bencodeObjList := .list (by simp)

/-! ## Walks -/

section Walk

variable {S : Type} {nodes : DictStore} {visit : CString → BencodeObj → S → Run S}
variable {kept : S → Prop} {fuel : ℕ} {user user' : S}

/-- What the visitor keeps at every entry of the store, the walk keeps. -/
theorem iterDictFrom_kept {start : Option ℕ}
    (hvisit : ∀ node ∈ nodes, ∀ key val before after, node.key = some key → node.val = some val →
      kept before → visit key val before = .ok after → kept after)
    (hwalk : iterDictFrom nodes visit fuel start user = .ok user') (huser : kept user) :
    kept user' := by
  induction fuel generalizing start user with
  | zero =>
      cases start with
      | none => exact Except.ok.inj hwalk ▸ huser
      | some index => cases hwalk
  | succ fuel ih =>
      cases start with
      | none => exact Except.ok.inj hwalk ▸ huser
      | some index =>
          obtain ⟨node, hnode, hrest⟩ := bind_eq_ok.mp hwalk
          have hmem : node ∈ nodes := List.mem_of_getElem? (nodeAt_eq_ok.mp hnode)
          dsimp only at hrest
          split at hrest
          · next key val hkey hval =>
              obtain ⟨middle, hmiddle, hrest⟩ := bind_eq_ok.mp hrest
              exact ih hrest (hvisit node hmem key val _ _ hkey hval huser hmiddle)
          · exact ih hrest huser

/-- A visitor that leaves short names alone leaves everything as it is. -/
theorem Short.iterDict_eq {obj : BencodeObj} (hobj : Short obj)
    (hvisit : ∀ key val user, strlen key ≤ 1 → visit key val user = .ok user)
    (hwalk : bencodeObjIterDict fuel obj visit user = .ok user') : user' = user := by
  cases hobj with
  | list hvals => exact (Except.ok.inj hwalk).symm
  | str hdata => exact (Except.ok.inj hwalk).symm
  | dict hkeys hvals =>
      refine @iterDictFrom_kept _ _ _ (· = user) _ _ _ _
        (fun node hnode key val before after hkey _ hbefore hstep => ?_) hwalk rfl
      rw [hvisit key val before (hkeys node hnode key hkey)] at hstep
      exact Except.ok.inj hstep ▸ hbefore

end Walk

/-! ## Copies and entries -/

theorem mem_spliced {nodes : DictStore} {curr : ℕ} {currNode node : DictNode BencodeObj}
    {next : Option ℕ} {name : CString} {val : BencodeObj}
    (hcurr : nodes[curr]? = some currNode)
    (hnode : node ∈ spliced nodes curr currNode next name val) :
    (∃ other ∈ nodes, node.key = other.key ∧ node.val = other.val) ∨
      node.key = some name ∧ node.val = some val := by
  rcases List.mem_append.mp hnode with hnode | hnode
  · rcases List.mem_or_eq_of_mem_set hnode with hnode | rfl
    · exact Or.inl ⟨node, hnode, rfl, rfl⟩
    · exact Or.inl ⟨currNode, List.mem_of_getElem? hcurr, rfl, rfl⟩
  · obtain rfl := List.mem_singleton.mp hnode
    exact Or.inr ⟨rfl, rfl⟩

theorem Short.spliced {nodes : DictStore} {curr : ℕ} {currNode : DictNode BencodeObj}
    {next : Option ℕ} {name : CString} {val : BencodeObj} (hnodes : Short (.dict nodes))
    (hcurr : nodes[curr]? = some currNode) (hname : strlen name ≤ 1) (hval : Short val) :
    Short (.dict (DictSet.spliced nodes curr currNode next name val)) := by
  cases hnodes with
  | dict hkeys hvals =>
      refine .dict (fun node hnode key hkey => ?_) (fun node hnode other hother => ?_)
      · rcases mem_spliced hcurr hnode with ⟨same, hsame, hsameKey, _⟩ | ⟨hnew, _⟩
        · exact hkeys same hsame key (hsameKey ▸ hkey)
        · exact Option.some.inj (hnew.symm.trans hkey) ▸ hname
      · rcases mem_spliced hcurr hnode with ⟨same, hsame, _, hsameVal⟩ | ⟨_, hnew⟩
        · exact hvals same hsame other (hsameVal ▸ hother)
        · exact Option.some.inj (hnew.symm.trans hother) ▸ hval

section Clones

variable {fuel : ℕ} {dict dict' val copy : BencodeObj}
variable {name : CString}

theorem Short.dictSetWith {clone : BencodeObj → Run BencodeObj}
    (hclone : ∀ obj copy, Short obj → clone obj = .ok copy → Short copy) (hdict : Short dict)
    (hname : strlen name ≤ 1) (hval : Short val)
    (hcall : BencodeObject.dictSetWith clone fuel dict (some name) val = .ok dict') :
    Short dict' := by
  obtain ⟨nodes, head, copy, nodes', rfl, hhead, hcopy, rfl, houtcome⟩ := dictSetWith_eq_ok hcall
  have hshort := hclone val copy hval hcopy
  cases houtcome with
  | front hbefore => exact hdict.spliced hhead hname hshort
  | behind hbefore hsegment hcurr hkey hlt => exact hdict.spliced hcurr hname hshort

/-- A copy is as short as the original. -/
theorem Short.clone (hval : Short val) (hclone : bencodeObjClone fuel val = .ok copy) :
    Short copy := by
  induction fuel generalizing val copy with
  | zero => simp [bencodeObjClone] at hclone
  | succ fuel ih =>
      cases hval with
      | str hdata =>
          rw [bencodeObjClone] at hclone
          exact Except.ok.inj hclone ▸ .str hdata
      | list hvals =>
          rw [bencodeObjClone] at hclone
          refine foldlM_invariant (fun val hmem before after _ hstep => ?_) hclone
            short_bencodeObjList
          -- there is no item to copy
          rcases hvals val hmem with rfl | rfl
          · cases hstep
          · cases hstep
      | dict hkeys hvals =>
          rw [bencodeObjClone, bencodeObjIterDict] at hclone
          refine iterDictFrom_kept
            (fun node hnode key val before after hkey hval hbefore hstep => ?_) hclone
            short_bencodeObjDict
          obtain ⟨valClone, hvalClone, hset⟩ := bind_eq_ok.mp hstep
          exact Short.dictSetWith (fun _ _ => ih) hbefore (hkeys node hnode key hkey)
            (ih (hvals node hnode val hval) hvalClone) hset

theorem Short.dictSet (hdict : Short dict) (hname : strlen name ≤ 1) (hval : Short val)
    (hcall : bencodeObjDictSet fuel dict (some name) val = .ok dict') : Short dict' :=
  Short.dictSetWith (fun _ _ => Short.clone) hdict hname hval hcall

end Clones

/-! ## The reader -/

theorem bencodeReadStr_short {prefixByte : Byte} {ctx ctx' : ReadCtx} {o : Option BencodeObj}
    (hcall : bencodeReadStr prefixByte ctx = .ok (o, ctx')) :
    ShortIfSet o ∧ ∀ k, o = some k → ∃ data, k = .str data ∧ data.length ≤ 1 := by
  cases bencodeReadStr_eq_ok hcall with
  | failed hlength => exact ⟨shortIfSet_none, by simp⟩
  | str hne hlength htail hdata =>
      exact ⟨shortIfSet_some (.str hdata), fun k hk => ⟨_, (Option.some.inj hk).symm, hdata⟩⟩

/-- Everything that the reader delivers is short. -/
def ShortReader (read : Reader) : Prop :=
  ∀ c ctx o ctx', read c ctx = .ok (o, ctx') → ShortIfSet o

section Loops

variable {read : Reader} {fuel release : ℕ} {dict dict' list list' : BencodeObj}
variable {prefixByte : Byte} {ctx ctx' : ReadCtx}

theorem setIfRead_short {k v : Option BencodeObj} (hdict : Short dict)
    (hk : ∀ obj, k = some obj → ∃ data, obj = .str data ∧ data.length ≤ 1) (hv : ShortIfSet v)
    (hcall : setIfRead fuel dict k v ctx = .ok dict') : Short dict' := by
  rw [setIfRead] at hcall
  split_ifs at hcall with hpos
  · obtain ⟨obj, hobj, hkey⟩ := bind_eq_ok.mp hcall
    obtain ⟨key, hdata, hval⟩ := bind_eq_ok.mp hkey
    obtain ⟨val, hv', hset⟩ := bind_eq_ok.mp hval
    obtain ⟨data, rfl, hlength⟩ := hk obj (deref_eq_ok.mp hobj)
    rw [strData] at hdata
    split_ifs at hdata with hempty
    · exact absurd (Except.ok.inj hdata ▸ hset) dictSet_null_ne_ok
    · obtain rfl := Except.ok.inj hdata
      have hname : strlen (ofBuffer data) ≤ 1 :=
        ((List.takeWhile_prefix _).length_le).trans hlength
      exact hdict.dictSet hname (hv val (deref_eq_ok.mp hv')) hset
  · exact Except.ok.inj hcall ▸ hdict

theorem bencodeReadDictItem_short (hread : ShortReader read) (hdict : Short dict)
    (hcall : bencodeReadDictItem read fuel dict prefixByte ctx = .ok (dict', ctx')) :
    Short dict' := by
  obtain ⟨⟨k, afterKey⟩, hkey, hcall⟩ := bind_eq_ok.mp hcall
  dsimp only at hcall
  split_ifs at hcall with herror
  · exact (ok_pair_inj hcall).1 ▸ hdict
  · obtain ⟨⟨v, afterValue⟩, hvalue, hcall⟩ := bind_eq_ok.mp hcall
    obtain ⟨stored, hset, hcall⟩ := bind_eq_ok.mp hcall
    obtain ⟨_, _, hcall⟩ := bind_eq_ok.mp hcall
    obtain ⟨_, _, hcall⟩ := bind_eq_ok.mp hcall
    obtain ⟨rfl, _⟩ := ok_pair_inj hcall
    exact setIfRead_short hdict (bencodeReadStr_short hkey).2 (hread _ _ _ _ hvalue) hset

theorem readDictLoop_short (hread : ShortReader read) (hdict : Short dict)
    (hloop : readDictLoop read release fuel dict ctx = .ok (dict', ctx')) : Short dict' := by
  induction fuel generalizing dict ctx with
  | zero => simp [readDictLoop] at hloop
  | succ fuel ih =>
      rw [readDictLoop] at hloop
      split at hloop
      · exact (ok_pair_inj hloop).1 ▸ hdict
      · split_ifs at hloop with hend
        · exact (ok_pair_inj hloop).1 ▸ hdict
        · obtain ⟨⟨next, middle⟩, hitem, hrest⟩ := bind_eq_ok.mp hloop
          exact ih (bencodeReadDictItem_short hread hdict hitem) hrest

/-- The items of a list have been released, or there was none. -/
theorem readListLoop_short (hlist : Short list)
    (hloop : readListLoop read release fuel list ctx = .ok (list', ctx')) : Short list' := by
  induction fuel generalizing list ctx with
  | zero => simp [readListLoop] at hloop
  | succ fuel ih =>
      rw [readListLoop] at hloop
      split at hloop
      · exact (ok_pair_inj hloop).1 ▸ hlist
      · split_ifs at hloop with hend
        · exact (ok_pair_inj hloop).1 ▸ hlist
        · obtain ⟨⟨li, middle⟩, hitem, hrest⟩ := bind_eq_ok.mp hloop
          obtain ⟨next, happend, hrest⟩ := bind_eq_ok.mp hrest
          obtain ⟨_, _, hrest⟩ := bind_eq_ok.mp hrest
          refine ih ?_ hrest
          cases hlist with
          | str hdata => cases happend
          | dict hkeys hvals => cases happend
          | list hvals =>
              obtain rfl := Except.ok.inj happend
              refine .list fun val hval => ?_
              rcases List.mem_append.mp hval with hval | hval
              · exact hvals val (List.mem_of_mem_dropLast hval)
              · cases li with
                | none => exact Or.inl (by simpa [appendedItem] using hval)
                | some item =>
                    rcases List.mem_pair.mp hval with rfl | rfl
                    · exact Or.inr rfl
                    · exact Or.inl rfl

theorem dispatch_short (hread : ShortReader read) {c : Option Byte} {o : Option BencodeObj}
    (hcall : dispatch read fuel c ctx = .ok (o, ctx')) : ShortIfSet o := by
  cases c with
  | none => exact (ok_pair_inj hcall).1 ▸ shortIfSet_none
  | some byte =>
      rw [dispatch] at hcall
      split_ifs at hcall with hlist hdict hdigit
      · obtain ⟨⟨list, after⟩, hloop, hresult⟩ := bind_eq_ok.mp hcall
        exact (ok_pair_inj hresult).1 ▸
          shortIfSet_some (readListLoop_short short_bencodeObjList hloop)
      · obtain ⟨⟨dict, after⟩, hloop, hresult⟩ := bind_eq_ok.mp hcall
        exact (ok_pair_inj hresult).1 ▸
          shortIfSet_some (readDictLoop_short hread short_bencodeObjDict hloop)
      · exact (bencodeReadStr_short hcall).1
      · exact (ok_pair_inj hcall).1 ▸ shortIfSet_none

end Loops

theorem bencodeRead_short (fuel : ℕ) : ShortReader (bencodeRead fuel) := by
  induction fuel with
  | zero =>
      intro c ctx o ctx' hcall
      cases hcall
  | succ fuel ih =>
      intro c ctx o ctx' hcall
      rw [bencodeRead] at hcall
      split_ifs at hcall with hgiven
      · exact dispatch_short ih hcall
      · exact dispatch_short ih hcall

/-- Whatever the stream, `bencode_read_file` delivers no string and no key of
two bytes or more, at any depth, and no list item that can be followed. -/
theorem short_of_bencodeReadFile {fuel : ℕ} {f rest : InFile} {count : ℤ} {obj : BencodeObj}
    (hread : bencodeReadFile fuel f = .ok (count, some obj, rest)) : Short obj := by
  obtain ⟨⟨o, ctx⟩, hcall, hresult⟩ := bind_eq_ok.mp hread
  obtain ⟨_, hpair⟩ := Prod.mk.inj (Except.ok.inj hresult)
  exact bencodeRead_short fuel 0 _ o ctx hcall obj (Prod.mk.inj hpair).1

/-- `d11:a0:e` is read as a dict with the key `a`. -/
def keyAStream : InFile := [ch 'd', ch '1', ch '1', ch ':', ch 'a', ch '0', ch ':', ch 'e']

theorem short_of_bencodeReadFile_keyA :
    ∃ count dict, bencodeReadFile 4 keyAStream = .ok (count, some dict, []) ∧
      bencodeObjIsDict dict = true ∧ Short dict := by
  have hread : ∃ count dict, bencodeReadFile 4 keyAStream = .ok (count, some dict, []) ∧
      bencodeObjIsDict dict = true := ⟨_, _, rfl, rfl⟩
  obtain ⟨count, dict, hread, hdict⟩ := hread
  exact ⟨count, dict, hread, hdict, short_of_bencodeReadFile hread⟩

end I2pLite.ShortStrings

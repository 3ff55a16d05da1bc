import I2pLite.Config.Reload
import I2pLite.Router.Main

/-!
# The generated configuration file

Two comment lines, an empty one, and the defaults.  Nobody looks at the result
of the first write.  Where it was cut within a comment, the line of the first
entry becomes a part of that comment.
-/

namespace I2pLite.Generate

open I2pLite.CRun
open I2pLite.CBytes
open I2pLite.Decimal
open I2pLite.Stdio
open I2pLite.Pieces
open I2pLite.FileSystem
open I2pLite.PathBuffer
open I2pLite.Config
open I2pLite.ConfigLines
open I2pLite.ConfigReload
open I2pLite.Main

/-! ## The code -/

def firstComment : List Byte := "# auto generated config file".toList.map ch

def generatedAt : List Byte := "# generated at ".toList.map ch

def secondComment (now : UInt64) : List Byte := generatedAt ++ decimal now.toNat

/-- What is written in front of the entries. -/
def header (now : UInt64) : List Byte :=
  firstComment ++ ch '\n' :: (secondComment now ++ ch '\n' :: [ch '\n'])

def usr : CString := ofBuffer ("usr".toList.map ch)

def lib : CString := ofBuffer ("lib".toList.map ch)

def mnet : CString := ofBuffer ("mnet".toList.map ch)

def dotConfig : CString := ofBuffer (".config".toList.map ch)

def rootDir : CString := ofBuffer [ch '/']

def mnetDatadir : CString := ofBuffer ("mnet.datadir".toList.map ch)

def one : CString := ofBuffer [ch '1']

/-- The data directory of the defaults. -/
def genDatadir (home : Option CString) : Run CString := do
  let datadir ← pathJoin rootDir [usr, lib, mnet]
  match home with
  | some home => pathJoin home [dotConfig, mnet]
  | none => .ok datadir

def genConfig (datadir : CString) : MnetConfig :=
  let c := mnetConfigAlloc
  let c := mnetConfigAppendEntry c mnetConfigCryptoCheck one
  let c := mnetConfigAppendEntry c mnetDatadir datadir
  mnetConfigAppendEntry c mnetConfigLogLevel one

/-- The returned flag, and the file where it could be opened. -/
def mnetConfigGen (now : UInt64) (home : Option CString) (f : Option OutFile) :
    Run (ℤ × Option OutFile) :=
  match f with
  | none => .ok (0, none)
  | some f => do
      let (_, f) := fprintf f (header now)
      let datadir ← genDatadir home
      let f ← mnetConfigForEach (genConfig datadir) mnetConfigIterWrite f
      .ok (1, some f)

/-! ## Comment lines -/

/-- Comments and empty lines; the last of them may be cut. -/
inductive Comments : List Byte → Bool → Prop
  | none : Comments [] false
  | cut (body : List Byte) (hcomment : body.head? = some (ch '#')) (hline : ch '\n' ∉ body)
      (hshort : body.length < 512) : Comments body true
  | line (body : List Byte) {tail : List Byte} {cut : Bool}
      (hcomment : body = [] ∨ body.head? = some (ch '#')) (hline : ch '\n' ∉ body)
      (hshort : body.length < 512) (htail : Comments tail cut) :
      Comments (body ++ ch '\n' :: tail) cut

section Comments

variable {text rest : List Byte} {cut : Bool} {cfg : MnetConfig} {entry : MnetConfigEntry}

theorem head?_take {body : List Byte} {count : ℕ} (hcount : count ≠ 0) :
    (body.take count).head? = body.head? := by
  obtain ⟨count, rfl⟩ := Nat.exists_eq_succ_of_ne_zero hcount
  cases body <;> rfl

/-- A cut through comments leaves comments. -/
theorem Comments.take (hcomments : Comments text cut) (count : ℕ) :
    ∃ cut', Comments (text.take count) cut' := by
  induction hcomments generalizing count with
  | none => exact ⟨false, by simpa using Comments.none⟩
  | cut body hcomment hline hshort =>
      by_cases hcount : count = 0
      · subst hcount
        exact ⟨false, .none⟩
      · refine ⟨true, .cut _ ?_ (fun hmem => hline (List.mem_of_mem_take hmem)) ?_⟩
        · rw [head?_take hcount, hcomment]
        · rw [List.length_take]
          omega
  | line body hcomment hline hshort htail ih =>
      by_cases hcount : count ≤ body.length
      · rw [List.take_append_of_le_length hcount]
        by_cases hempty : body.take count = []
        · rw [hempty]
          exact ⟨false, .none⟩
        · rw [List.take_eq_nil_iff, not_or] at hempty
          refine ⟨true, .cut _ ?_ (fun hmem => hline (List.mem_of_mem_take hmem)) ?_⟩
          · rw [head?_take hempty.1, hcomment.resolve_left hempty.2]
          · rw [List.length_take]
            omega
      · obtain ⟨count, rfl⟩ := Nat.exists_eq_add_of_lt (Nat.lt_of_not_le hcount)
        obtain ⟨cut', htake⟩ := ih count
        refine ⟨cut', ?_⟩
        rw [Nat.add_assoc, List.take_length_add_append, List.take_succ_cons]
        exact .line body hcomment hline hshort htake

theorem readLine_comment {body : List Byte} (hcomment : body.head? = some (ch '#')) :
    readLine (body ++ rest) = .skipped := by
  obtain ⟨tail, rfl⟩ := List.head?_eq_some_iff.mp hcomment
  have hstring : (ofBuffer (ch '#' :: tail ++ rest)).bytes =
      ch '#' :: (ofBuffer (tail ++ rest)).bytes := rfl
  rw [readLine, hstring, isCommentLine, skipSpaces_cons_of_ne (by decide), List.head?_cons,
    if_pos (decide_eq_true rfl)]

theorem readsOf_comment_line {body : List Byte}
    (hcomment : body = [] ∨ body.head? = some (ch '#')) (hline : ch '\n' ∉ body)
    (hshort : body.length < 1023) (rest : List Byte) :
    readsOf (body ++ ch '\n' :: rest) = .skipped :: readsOf rest := by
  have hskipped : readLine (body ++ [ch '\n']) = .skipped := by
    rcases hcomment with rfl | hcomment
    · decide
    · exact readLine_comment hcomment
  rw [readsOf, pieces_line (isNewline_eq_false hline) (by decide) hshort, List.map_cons, hskipped,
    readsOf]

/-- Comments are skipped, and so is an entry that ends up in one of them. -/
theorem Comments.loaded_append (hcomments : Comments text cut)
    (hline : ch '\n' ∉ entry.name.bytes ++ [ch ' ', ch '=', ch ' '] ++ entry.value.bytes)
    (hfits : entry.name.bytes.length + 3 + entry.value.bytes.length < 511) :
    loaded (readsOf (text ++ (entryLine entry.name entry.value ++ rest))) cfg =
      loaded (readsOf (if cut then rest else entryLine entry.name entry.value ++ rest)) cfg := by
  induction hcomments with
  | none => rfl
  | cut body hcomment hbody hshort =>
      have hnewline : body ++ (entryLine entry.name entry.value ++ rest) =
          (body ++ (entry.name.bytes ++ [ch ' ', ch '=', ch ' '] ++ entry.value.bytes)) ++
            ch '\n' :: rest := by
        simp [entryLine]
      have hhead : (body ++ (entry.name.bytes ++ [ch ' ', ch '=', ch ' '] ++
          entry.value.bytes)).head? = some (ch '#') := by
        rw [List.head?_append, hcomment]
        rfl
      rw [hnewline, readsOf_comment_line (.inr hhead), loaded_skipped, if_pos rfl]
      · rw [List.mem_append, not_or]
        exact ⟨hbody, hline⟩
      · simp only [List.length_append, List.length_cons, List.length_nil]
        omega
  | line body hcomment hbody hshort htail ih =>
      rw [List.append_assoc, List.cons_append, readsOf_comment_line hcomment hbody (by omega),
        loaded_skipped, ih]

/-- Whether the last line was cut is seen at the end. -/
theorem Comments.cut_eq_false_iff (hcomments : Comments text cut) :
    cut = false ↔ text = [] ∨ text.getLast? = some (ch '\n') := by
  induction hcomments with
  | none => simp
  | cut body hcomment hline hshort =>
      have hne : body ≠ [] := by
        rintro rfl
        cases hcomment
      refine iff_of_false (by simp) ?_
      rintro (hempty | hlast)
      · exact hne hempty
      · exact hline (List.mem_of_getLast? hlast)
  | @line body tail _ hcomment hline hshort htail ih =>
      have hne : body ++ ch '\n' :: tail ≠ [] := by simp
      rw [ih, or_iff_right hne, List.getLast?_append_cons]
      cases tail with
      | nil => simp
      | cons byte tail => simp [List.getLast?_cons_cons]

theorem length_decimal_lt (now : UInt64) : (decimal now.toNat).length < 497 := by
  rw [decimal]
  split_ifs
  · simp
  · rw [List.length_map, List.length_reverse]
    have hdigits : (Nat.digits 10 now.toNat).length ≤ 20 := by
      rw [Nat.digits_length_le_iff (by omega)]
      exact now.toNat_lt.trans (by norm_num)
    omega

theorem comments_header (now : UInt64) : Comments (header now) false := by
  have hsecond : ch '\n' ∉ secondComment now := by
    rw [secondComment, List.mem_append, not_or]
    refine ⟨by decide, fun hmem => ?_⟩
    have hdigit := isDigit_of_mem_decimal hmem
    revert hdigit
    decide
  have hlength : (secondComment now).length < 512 := by
    have hdigits := length_decimal_lt now
    have hgeneratedAt : generatedAt.length = 15 := by decide
    rw [secondComment, List.length_append]
    omega
  exact .line _ (.inr (by decide)) (by decide) (by decide)
    (.line _ (.inr rfl) hsecond hlength (.line [] (.inl rfl) (by simp) (by simp) .none))

end Comments

/-! ## The entries -/

section Entries

variable {f f' : OutFile} {entries : List MnetConfigEntry} {size : ℕ}

/-- Where no write of an entry has failed, all of the entries are in the file. -/
theorem bytes_of_forEach_write
    (hrun : mnetConfigForEach { list := entries, size := size } mnetConfigIterWrite f = .ok f') :
    f'.bytes = f.bytes ++ entries.flatMap fun entry => entryLine entry.name entry.value := by
  induction entries generalizing f with
  | nil =>
      obtain rfl := Except.ok.inj hrun
      simp
  | cons entry entries ih =>
      rw [mnetConfigForEach, List.foldlM_cons] at hrun
      obtain ⟨middle, hwrite, hrest⟩ := bind_eq_ok.mp hrun
      have hmiddle : middle.bytes = f.bytes ++ entryLine entry.name entry.value := by
        rw [mnetConfigIterWrite, fprintf] at hwrite
        cases hfails : f.fails f.calls with
        | none =>
            rw [hfails] at hwrite
            dsimp only at hwrite
            rw [if_pos (by omega)] at hwrite
            obtain rfl := Except.ok.inj hwrite
            rw [OutFile.put, OutFile.emitted, hfails]
        | some count =>
            rw [hfails] at hwrite
            simp at hwrite
      rw [ih hrest, hmiddle, List.flatMap_cons, List.append_assoc]

/-- A value that was read has no newline, no comment and no space in front. -/
structure ReadValue (v : CString) : Prop where
  oneLine : ch '\n' ∉ v.bytes
  noComment : ch '#' ∉ v.bytes
  noSpace : v.bytes.head? ≠ some (ch ' ')

theorem readValue_takeWhile (text : List Byte) :
    ReadValue (ofBuffer ((skipSpaces text).takeWhile isValueByte)) := by
  have hbegins : (ofBuffer ((skipSpaces text).takeWhile isValueByte)).bytes <+:
      (skipSpaces text).takeWhile isValueByte := List.takeWhile_prefix _
  have hvalue : ∀ byte ∈ (ofBuffer ((skipSpaces text).takeWhile isValueByte)).bytes,
      isValueByte byte = true := fun byte hbyte =>
    List.mem_takeWhile_imp (hbegins.subset hbyte)
  refine ⟨fun hmem => ?_, fun hmem => ?_, fun hhead => ?_⟩
  · have hnewline := hvalue _ hmem
    revert hnewline
    decide
  · have hcomment := hvalue _ hmem
    revert hcomment
    decide
  · obtain ⟨tail, htail⟩ := List.head?_eq_some_iff.mp hhead
    obtain ⟨rest, hrest⟩ := hbegins.trans (List.takeWhile_prefix _)
    have hspace := List.head?_dropWhile_not (fun byte => byte = ch ' ') text
    rw [← skipSpaces, ← hrest, htail] at hspace
    simp at hspace

theorem readValue_of_readLine {linebuf : List Byte} {k v : CString}
    (hread : readLine linebuf = .entry k v) : ReadValue v := by
  simp only [readLine_eq] at hread
  split_ifs at hread
  obtain ⟨_, rfl⟩ := LineRead.entry.inj hread
  exact readValue_takeWhile _

theorem readValue_of_mem {reads : List LineRead} {entry : MnetConfigEntry}
    (hreads : ∀ k v, .entry k v ∈ reads → ReadValue v)
    (hmem : entry ∈ entriesBefore reads) : ReadValue entry.value := by
  induction reads with
  | nil => cases hmem
  | cons read reads ih =>
      have hrest : entry ∈ entriesBefore reads → ReadValue entry.value :=
        ih fun k v hread => hreads k v (List.mem_cons_of_mem _ hread)
      cases read with
      | skipped => exact hrest hmem
      | bad => cases hmem
      | entry k v =>
          rcases List.mem_cons.mp hmem with rfl | hmem
          · exact hreads k v List.mem_cons_self
          · exact hrest hmem

/-- Every value that a load makes an entry of. -/
theorem readValue_of_load {f : InFile} {ret : ℤ} {cfg : MnetConfig} {entry : MnetConfigEntry}
    (hload : mnetConfigLoad (some f) = .ok (ret, cfg)) (hmem : entry ∈ cfg.list) :
    ReadValue entry.value := by
  rw [mnetConfigLoad_eq] at hload
  obtain ⟨_, rfl⟩ := Prod.mk.inj (Except.ok.inj hload)
  simp only [mnetConfigAlloc, List.append_nil, List.mem_reverse] at hmem
  refine readValue_of_mem (fun k v hread => ?_) hmem
  obtain ⟨line, _, hline⟩ := List.mem_map.mp hread
  exact readValue_of_readLine hline

end Entries

/-! ## The generated file -/

def WholeLines (text : List Byte) : Prop := text = [] ∨ text.getLast? = some (ch '\n')

section Generated

variable {f f' : OutFile} {home : Option CString} {datadir : CString} {text : List Byte}
variable {cut : Bool} {now : UInt64}

theorem writable_of_short {k v : CString} (hname : k.bytes ≠ [])
    (hbytes : k.bytes.all isNameByte = true) (hline : ch '\n' ∉ v.bytes)
    (hfits : k.bytes.length + 3 + v.bytes.length + 1 ≤ 1023) : Writable ⟨k, v⟩ where
  name_ne_nil := hname
  name_bytes := fun byte hbyte => by
    simpa [isNameByte] using List.all_eq_true.mp hbytes byte hbyte
  value_bytes := hline
  fits := hfits

theorem writable_levelEntry : Writable ⟨mnetConfigLogLevel, one⟩ :=
  writable_of_short (by decide) (by decide) (by decide) (by decide)

theorem writable_checkEntry : Writable ⟨mnetConfigCryptoCheck, one⟩ :=
  writable_of_short (by decide) (by decide) (by decide) (by decide)

theorem writable_datadirEntry (hline : ch '\n' ∉ datadir.bytes) (hshort : strlen datadir ≤ 255) :
    Writable ⟨mnetDatadir, datadir⟩ := by
  refine writable_of_short (by decide) (by decide) hline ?_
  have hname : mnetDatadir.bytes.length = 12 := by decide
  rw [strlen] at hshort
  omega

theorem strlen_le_of_pathJoin {base joined : CString} {parts : List CString}
    (hjoin : pathJoin base parts = .ok joined) : strlen joined ≤ 255 := by
  obtain ⟨path, hpath, htake⟩ := exists_pathJoin (pathFits_of_pathJoin hjoin)
  obtain rfl := Except.ok.inj (hjoin.symm.trans hpath)
  rw [strlen, htake, List.length_take]
  exact Nat.min_le_left _ _

theorem strlen_le_of_genDatadir (hdatadir : genDatadir home = .ok datadir) :
    strlen datadir ≤ 255 := by
  obtain ⟨standard, hstandard, hrest⟩ := bind_eq_ok.mp hdatadir
  cases home with
  | none =>
      obtain rfl := Except.ok.inj hrest
      exact strlen_le_of_pathJoin hstandard
  | some home => exact strlen_le_of_pathJoin hrest

theorem emitted_eq_take (f : OutFile) (data : List Byte) :
    ∃ count, f.emitted data = data.take count := by
  rw [OutFile.emitted]
  cases f.fails f.calls with
  | none => exact ⟨data.length, (List.take_length).symm⟩
  | some count => exact ⟨_, rfl⟩

/-- The file of a generation: comments, and the lines of the three entries. -/
theorem mnetConfigGen_eq_ok (hempty : f.bytes = [])
    (hgen : mnetConfigGen now home (some f) = .ok (1, some f')) :
    ∃ datadir cut, genDatadir home = .ok datadir ∧ Comments (f.emitted (header now)) cut ∧
      f'.bytes = f.emitted (header now) ++ (genConfig datadir).list.flatMap fun entry =>
        entryLine entry.name entry.value := by
  obtain ⟨datadir, hdatadir, hrest⟩ := bind_eq_ok.mp hgen
  obtain ⟨written, hwrite, hresult⟩ := bind_eq_ok.mp hrest
  obtain ⟨_, hfile⟩ := Prod.mk.inj (Except.ok.inj hresult)
  obtain rfl := Option.some.inj hfile
  obtain ⟨count, hcount⟩ := emitted_eq_take f (header now)
  obtain ⟨cut, hcomments⟩ := (comments_header now).take count
  have hheader : (fprintf f (header now)).2.bytes = f.emitted (header now) := by
    rw [fprintf]
    cases f.fails f.calls with
    | none => simp [OutFile.put, hempty]
    | some _ => simp [OutFile.put, hempty]
  exact ⟨datadir, cut, hdatadir, hcount ▸ hcomments,
    (bytes_of_forEach_write hwrite).trans (congrArg (· ++ _) hheader)⟩

/-- A data directory on one line is loaded, and so is the level of the log where
its line is one of its own. -/
theorem mnetConfigLoad_generated (hline : ch '\n' ∉ datadir.bytes) (hshort : strlen datadir ≤ 255)
    (hcomments : Comments text cut) :
    mnetConfigLoad (some (text ++ (genConfig datadir).list.flatMap fun entry =>
        entryLine entry.name entry.value)) =
      .ok (1, if cut
        then { list := [⟨mnetConfigCryptoCheck, one⟩, ⟨mnetDatadir, valueReadBack datadir⟩]
               size := 2 }
        else { list := [⟨mnetConfigCryptoCheck, one⟩, ⟨mnetDatadir, valueReadBack datadir⟩,
                 ⟨mnetConfigLogLevel, one⟩]
               size := 3 }) := by
  have hone : valueReadBack one = one := by decide
  have htail : readsOf ([⟨mnetDatadir, datadir⟩, ⟨mnetConfigCryptoCheck, one⟩].flatMap
      fun entry : MnetConfigEntry => entryLine entry.name entry.value) =
        [.entry mnetDatadir (valueReadBack datadir), .entry mnetConfigCryptoCheck one] := by
    rw [readsOf_flatMap]
    · simp only [List.map_cons, List.map_nil, hone]
    · intro entry hentry
      rcases List.mem_pair.mp hentry with rfl | rfl
      · exact writable_datadirEntry hline hshort
      · exact writable_checkEntry
  have hlist : (genConfig datadir).list =
      ⟨mnetConfigLogLevel, one⟩ :: [⟨mnetDatadir, datadir⟩, ⟨mnetConfigCryptoCheck, one⟩] := rfl
  rw [mnetConfigLoad_eq, hlist, List.flatMap_cons,
    hcomments.loaded_append (by decide) (by decide)]
  cases cut with
  | true => rw [if_pos rfl, htail]; rfl
  | false =>
      rw [if_neg Bool.false_ne_true, readsOf_entryLine_append writable_levelEntry, htail, hone]
      rfl

/-- The defaults, in the order of their lines turned around. -/
def defaults (datadir : CString) : MnetConfig where
  list := (genConfig datadir).list.reverse
  size := (genConfig datadir).size

/-- With a path that can be joined and a stream that takes all, a file is
generated. -/
theorem exists_mnetConfigGen (now : UInt64) (hdatadir : genDatadir home = .ok datadir)
    (hf : f.NeverFails) : ∃ f', mnetConfigGen now home (some f) = .ok (1, some f') := by
  obtain ⟨f', hwrite, _⟩ := mnetConfigForEach_write (hf.put (header now)) (genConfig datadir).size
    (genConfig datadir).list
  refine ⟨f', ?_⟩
  rw [mnetConfigGen]
  dsimp only
  rw [hdatadir, ok_bind, hf.fprintf_eq]
  dsimp only
  rw [hwrite]
  rfl

theorem pathJoin_whole {base : CString} {parts : List CString} (hbase : base.bytes ≠ [])
    (hfits : strlen (wholePath base parts) < 256) :
    pathJoin base parts = .ok (wholePath base parts) := by
  rw [pathJoin_eq_netdb (by omega)]
  exact Files.pathJoin_eq hbase hfits

/-- The path for a home directory that leaves room for it. -/
theorem genDatadir_home {home : CString} (hne : home.bytes ≠ []) (hshort : strlen home ≤ 242) :
    genDatadir (some home) = .ok (wholePath home [dotConfig, mnet]) := by
  have hlength : strlen (wholePath home [dotConfig, mnet]) = strlen home + 8 + 5 := by
    simp only [wholePath, List.foldl_cons, List.foldl_nil, strlen_slash_eq]
    rfl
  rw [genDatadir, pathJoin_whole (by decide) (by decide), ok_bind]
  exact pathJoin_whole hne (by omega)

/-- A generated file is loaded as the defaults exactly where its data directory
can be read back and the comments in front were not cut within a line. -/
theorem mnetConfigGen_loads_iff (hempty : f.bytes = [])
    (hgen : mnetConfigGen now home (some f) = .ok (1, some f')) :
    ∃ datadir, genDatadir home = .ok datadir ∧
      (mnetConfigLoad (some f'.bytes) = .ok (1, defaults datadir) ↔
        ReadValue datadir ∧ WholeLines (f.emitted (header now))) := by
  obtain ⟨datadir, cut, hdatadir, hcomments, hbytes⟩ := mnetConfigGen_eq_ok hempty hgen
  refine ⟨datadir, hdatadir, ?_⟩
  have hshort := strlen_le_of_genDatadir hdatadir
  rw [hbytes, WholeLines, ← hcomments.cut_eq_false_iff]
  constructor
  · intro hload
    have hvalue : ReadValue datadir :=
      @readValue_of_load _ _ _ ⟨mnetDatadir, datadir⟩ hload (by simp [defaults, genConfig,
        mnetConfigAppendEntry])
    refine ⟨hvalue, ?_⟩
    rw [mnetConfigLoad_generated hvalue.oneLine hshort hcomments] at hload
    cases cut with
    | true =>
        have hsize : 2 = 3 := congrArg MnetConfig.size (Prod.mk.inj (Except.ok.inj hload)).2
        omega
    | false => rfl
  · rintro ⟨hvalue, rfl⟩
    have hback := valueReadBack_eq hvalue.noSpace hvalue.noComment
    rw [mnetConfigLoad_generated hvalue.oneLine hshort hcomments, hback]
    rfl

theorem mnetConfigGen_loads_iff_home :
    ∃ f' datadir, mnetConfigGen 0 homeEnvironment.home (some { fails := fun _ => none }) =
        .ok (1, some f') ∧
      (mnetConfigLoad (some f'.bytes) = .ok (1, defaults datadir) ↔
        ReadValue datadir ∧
          WholeLines (OutFile.emitted { fails := fun _ => none } (header 0))) := by
  obtain ⟨f', hgen⟩ := @exists_mnetConfigGen { fails := fun _ => none } homeEnvironment.home _ 0
    (genDatadir_home (by decide) (by decide)) fun _ => rfl
  obtain ⟨datadir, _, hloads⟩ := mnetConfigGen_loads_iff rfl hgen
  exact ⟨f', datadir, hgen, hloads⟩

end Generated

end I2pLite.Generate

import I2pLite.Bencode.ChainState
import I2pLite.Bencode.ReadCount

/-!
# The frame of a stream

How the reader splits a stream into strings, lists and dicts depends on the
bytes alone.  `Framed` is that splitting as a grammar, errors included, and a
`Frame` is what it yields.  On a frame one can read off what the sign of the
count is after it, which entries are stored in their dict, and whether every
list item can be released and every stored value copied.
-/

namespace I2pLite.Framing

open I2pLite.CRun
open I2pLite.CBytes
open I2pLite.Decimal
open I2pLite.Stdio
open I2pLite.Bencoding
open I2pLite.Read
open I2pLite.ReadCount
open I2pLite.ChainState

/-- What `_bencode_read` makes of a part of the stream: nothing, a string, a
list, or a dict whose entries may lack a key; a list or dict is closed by its
terminator or left open by the end of the stream.  A NUL in front of a list
item is skipped. -/
inductive Frame
  | bad
  | str (data : List Byte)
  | list (items : List Frame) (closed : Bool)
  | dict (entries : List (Option (List Byte × Frame))) (closed : Bool)
  | skip (frame : Frame)

abbrev Entries := List (Option (List Byte × Frame))

/-- A string behind its first byte: the data, or nothing where the length is
negative or the data is not one byte that is there. -/
def strFrame (f : InFile) : Run (Option (List Byte) × InFile) :=
  if f = [] then .ok (none, [])
  else do
    let (_, sz) ← lineLength 0 (splitLine (ch ':') f).1
    let tail := (splitLine (ch ':') f).2
    if sz = 0 then .ok (some [], tail)
    else if sz = 1 ∧ tail ≠ [] then .ok (some (tail.take 1), tail.drop 1)
    else .ok (none, tail.drop sz.toNat)

/-! ## The sign of the count -/

inductive Sign
  | negative
  | zero
  | positive
  deriving DecidableEq

def signOf (count : ℤ) : Sign :=
  if count < 0 then .negative else if count = 0 then .zero else .positive

/-- One more byte is counted. -/
def Sign.count : Sign → Sign
  | .negative => .zero
  | .zero => .positive
  | .positive => .positive

mutual

/-- The sign of the count behind a frame, from the sign in front of it. -/
def Frame.sign : Frame → Sign → Sign
  | .bad, _ => .negative
  | .str _, _ => .positive
  | .list items closed, sign => if closed then itemsSign items sign else .negative
  | .dict entries closed, sign => if closed then entriesSign entries sign else .negative
  | .skip frame, sign => frame.sign sign.count

def itemsSign : List Frame → Sign → Sign
  | [], sign => sign
  | item :: items, sign => itemsSign items (item.sign sign.count)

def entriesSign : Entries → Sign → Sign
  | [], sign => sign
  | none :: entries, _ => entriesSign entries .negative
  | some (_, value) :: entries, _ => entriesSign entries (value.sign .positive)

end

/-! ## What is done with a frame's object -/

/-- The count behind the value is positive, so the entry is stored. -/
def Frame.stored (value : Frame) : Bool := value.sign .positive = .positive

/-- The keys of the entries that are stored. -/
def storedKeys (entries : Entries) : List CString :=
  entries.filterMap fun entry =>
    match entry with
    | some (key, value) => if value.stored then some (ofBuffer key) else none
    | none => none

/-- No object is delivered. -/
def Frame.isBad : Frame → Bool
  | .bad => true
  | .skip frame => frame.isBad
  | _ => false

/-- The object can be released: its list items are gone already, and keys that
do not descend close a cycle. -/
def Frame.releasable : Frame → Bool
  | .list items _ => items.all Frame.isBad
  | .dict entries _ => (storedKeys entries).Pairwise (· > ·)
  | .skip frame => frame.releasable
  | _ => true

/-- The object can be copied. -/
def Frame.storable : Frame → Bool
  | .str _ => true
  | .dict entries _ => (storedKeys entries).length ≤ 1
  | .skip frame => frame.storable
  | _ => false

mutual

/-- Every list item and every dict value can be released, every stored value
has a key and can be copied, and the keys of every dict let each call of
`bencode_obj_dict_set` return. -/
def Frame.safe : Frame → Bool
  | .bad => true
  | .str _ => true
  | .list items _ => itemsSafe items
  | .dict entries _ => entriesSafe entries && (chainFrom .empty (storedKeys entries)).isSome
  | .skip frame => frame.safe

def itemsSafe : List Frame → Bool
  | [] => true
  | item :: items => item.safe && item.releasable && itemsSafe items

def entriesSafe : Entries → Bool
  | [] => true
  | none :: entries => entriesSafe entries
  | some (key, value) :: entries =>
      value.safe && value.releasable && (!value.stored || key ≠ [] && value.storable) &&
        entriesSafe entries

end

/-! ## The grammar -/

/-- What a rule of the grammar frames. -/
inductive Part
  | value (frame : Frame)
  | items (items : List Frame) (closed : Bool)
  | entries (entries : Entries) (closed : Bool)

/-- The frame of a string that was read, or not. -/
def frameOfStr : Option (List Byte) → Frame
  | none => .bad
  | some data => .str data

inductive Framed : InFile → Part → InFile → Prop
  | eof : Framed [] (.value .bad) []
  | badByte {c f} : c ≠ ch 'l' → c ≠ ch 'd' → ¬ isDigit c → Framed (c :: f) (.value .bad) f
  | str {c f result rest} : isDigit c → strFrame f = .ok (result, rest) →
      Framed (c :: f) (.value (frameOfStr result)) rest
  | list {f items closed rest} : Framed f (.items items closed) rest →
      Framed (ch 'l' :: f) (.value (.list items closed)) rest
  | dict {f entries closed rest} : Framed f (.entries entries closed) rest →
      Framed (ch 'd' :: f) (.value (.dict entries closed)) rest
  | itemsOpen : Framed [] (.items [] false) []
  | itemsEnd {f} : Framed (ch 'e' :: f) (.items [] true) f
  | itemsSkip {f item middle items closed rest} : Framed f (.value item) middle →
      Framed middle (.items items closed) rest →
      Framed (0 :: f) (.items (.skip item :: items) closed) rest
  | itemsCons {c f item middle items closed rest} : c ≠ ch 'e' → c ≠ 0 →
      Framed (c :: f) (.value item) middle → Framed middle (.items items closed) rest →
      Framed (c :: f) (.items (item :: items) closed) rest
  | entriesOpen : Framed [] (.entries [] false) []
  | entriesEnd {f} : Framed (ch 'e' :: f) (.entries [] true) f
  | entriesNoKey {c f middle entries closed rest} : c ≠ ch 'e' →
      strFrame f = .ok (none, middle) → Framed middle (.entries entries closed) rest →
      Framed (c :: f) (.entries (none :: entries) closed) rest
  | entriesCons {c f key afterKey value middle entries closed rest} : c ≠ ch 'e' →
      strFrame f = .ok (some key, afterKey) → Framed afterKey (.value value) middle →
      Framed middle (.entries entries closed) rest →
      Framed (c :: f) (.entries (some (key, value) :: entries) closed) rest

/-! ## A stream has one frame -/

def Part.place : Part → Place
  | .value _ => .value
  | .items _ _ => .items
  | .entries _ _ => .entries

theorem isDigit_l : ¬ isDigit (ch 'l') := by decide

theorem isDigit_d : ¬ isDigit (ch 'd') := by decide

theorem Framed.value_cons {c : Byte} {f rest : InFile} {frame : Frame}
    (hframed : Framed (c :: f) (.value frame) rest) :
    (c = ch 'l' ∧ ∃ items closed, frame = .list items closed ∧
        Framed f (.items items closed) rest) ∨
      (c = ch 'd' ∧ ∃ entries closed, frame = .dict entries closed ∧
        Framed f (.entries entries closed) rest) ∨
      (isDigit c ∧ ∃ result, strFrame f = .ok (result, rest) ∧ frame = frameOfStr result) ∨
      (c ≠ ch 'l' ∧ c ≠ ch 'd' ∧ ¬ isDigit c ∧ frame = .bad ∧ rest = f) := by
  cases hframed with
  | badByte hlist hdict hdigit => exact Or.inr (Or.inr (Or.inr ⟨hlist, hdict, hdigit, rfl, rfl⟩))
  | str hdigit hstr => exact Or.inr (Or.inr (Or.inl ⟨hdigit, _, hstr, rfl⟩))
  | list hbody => exact Or.inl ⟨rfl, _, _, rfl, hbody⟩
  | dict hbody => exact Or.inr (Or.inl ⟨rfl, _, _, rfl, hbody⟩)

theorem Framed.items_cons {c : Byte} {f rest : InFile} {items : List Frame} {closed : Bool}
    (hframed : Framed (c :: f) (.items items closed) rest) :
    (c = ch 'e' ∧ items = [] ∧ closed = true ∧ rest = f) ∨
      (c = 0 ∧ ∃ item middle others, items = .skip item :: others ∧
        Framed f (.value item) middle ∧ Framed middle (.items others closed) rest) ∨
      (c ≠ ch 'e' ∧ c ≠ 0 ∧ ∃ item middle others, items = item :: others ∧
        Framed (c :: f) (.value item) middle ∧ Framed middle (.items others closed) rest) := by
  cases hframed with
  | itemsEnd => exact Or.inl ⟨rfl, rfl, rfl, rfl⟩
  | itemsSkip hitem hitems => exact Or.inr (Or.inl ⟨rfl, _, _, _, rfl, hitem, hitems⟩)
  | itemsCons hend hzero hitem hitems =>
      exact Or.inr (Or.inr ⟨hend, hzero, _, _, _, rfl, hitem, hitems⟩)

theorem Framed.entries_cons {c : Byte} {f rest : InFile} {entries : Entries} {closed : Bool}
    (hframed : Framed (c :: f) (.entries entries closed) rest) :
    (c = ch 'e' ∧ entries = [] ∧ closed = true ∧ rest = f) ∨
      (c ≠ ch 'e' ∧ ∃ middle others, entries = none :: others ∧
        strFrame f = .ok (none, middle) ∧ Framed middle (.entries others closed) rest) ∨
      (c ≠ ch 'e' ∧ ∃ key afterKey value middle others, entries = some (key, value) :: others ∧
        strFrame f = .ok (some key, afterKey) ∧ Framed afterKey (.value value) middle ∧
        Framed middle (.entries others closed) rest) := by
  cases hframed with
  | entriesEnd => exact Or.inl ⟨rfl, rfl, rfl, rfl⟩
  | entriesNoKey hend hstr hentries => exact Or.inr (Or.inl ⟨hend, _, _, rfl, hstr, hentries⟩)
  | entriesCons hend hstr hvalue hentries =>
      exact Or.inr (Or.inr ⟨hend, _, _, _, _, _, rfl, hstr, hvalue, hentries⟩)

/-- Two frames of one stream, in one place, are the same. -/
theorem Framed.deterministic {f rest rest' : InFile} {part part' : Part}
    (hframed : Framed f part rest) (hframed' : Framed f part' rest')
    (hplace : part.place = part'.place) : part = part' ∧ rest = rest' := by
  induction hframed generalizing part' rest' with
  | eof =>
      cases hframed' with
      | eof => exact ⟨rfl, rfl⟩
      | itemsOpen => cases hplace
      | entriesOpen => cases hplace
  | badByte hlist hdict hdigit =>
      cases part' with
      | value frame' =>
          rcases hframed'.value_cons with ⟨rfl, _⟩ | ⟨rfl, _⟩ | ⟨hdigit', _⟩ | ⟨_, _, _, rfl, rfl⟩
          · exact absurd rfl hlist
          · exact absurd rfl hdict
          · exact absurd hdigit' hdigit
          · exact ⟨rfl, rfl⟩
      | items | entries => cases hplace
  | str hdigit hstr =>
      cases part' with
      | value frame' =>
          rcases hframed'.value_cons with ⟨rfl, _⟩ | ⟨rfl, _⟩ | ⟨_, _, hstr', rfl⟩ |
            ⟨_, _, hdigit', _⟩
          · exact absurd hdigit isDigit_l
          · exact absurd hdigit isDigit_d
          · obtain ⟨rfl, rfl⟩ := ok_pair_inj (hstr.symm.trans hstr')
            exact ⟨rfl, rfl⟩
          · exact absurd hdigit hdigit'
      | items | entries => cases hplace
  | list _ ihBody =>
      cases part' with
      | value frame' =>
          rcases hframed'.value_cons with ⟨_, _, _, rfl, hbody'⟩ | ⟨hdict, _⟩ | ⟨hdigit, _⟩ |
            ⟨hlist, _⟩
          · obtain ⟨hitems, rfl⟩ := ihBody hbody' rfl
            cases hitems
            exact ⟨rfl, rfl⟩
          · exact absurd hdict (by decide)
          · exact absurd hdigit isDigit_l
          · exact absurd rfl hlist
      | items | entries => cases hplace
  | dict _ ihBody =>
      cases part' with
      | value frame' =>
          rcases hframed'.value_cons with ⟨hlist, _⟩ | ⟨_, _, _, rfl, hbody'⟩ | ⟨hdigit, _⟩ |
            ⟨_, hdict, _⟩
          · exact absurd hlist (by decide)
          · obtain ⟨hentries, rfl⟩ := ihBody hbody' rfl
            cases hentries
            exact ⟨rfl, rfl⟩
          · exact absurd hdigit isDigit_d
          · exact absurd rfl hdict
      | items | entries => cases hplace
  | itemsOpen =>
      cases hframed' with
      | itemsOpen => exact ⟨rfl, rfl⟩
      | eof => cases hplace
      | entriesOpen => cases hplace
  | itemsEnd =>
      cases part' with
      | items items' closed' =>
          rcases hframed'.items_cons with ⟨_, rfl, rfl, rfl⟩ | ⟨hzero, _⟩ | ⟨hend, _⟩
          · exact ⟨rfl, rfl⟩
          · exact absurd hzero (by decide)
          · exact absurd rfl hend
      | value | entries => cases hplace
  | itemsSkip _ _ ihItem ihItems =>
      cases part' with
      | items items' closed' =>
          rcases hframed'.items_cons with ⟨hend, _⟩ | ⟨_, _, _, _, rfl, hitem', hitems'⟩ |
            ⟨_, hzero, _⟩
          · exact absurd hend (by decide)
          · obtain ⟨hitem, rfl⟩ := ihItem hitem' rfl
            obtain ⟨hitems, rfl⟩ := ihItems hitems' rfl
            cases hitem
            cases hitems
            exact ⟨rfl, rfl⟩
          · exact absurd rfl hzero
      | value | entries => cases hplace
  | itemsCons hend hzero _ _ ihItem ihItems =>
      cases part' with
      | items items' closed' =>
          rcases hframed'.items_cons with ⟨hend', _⟩ | ⟨hzero', _⟩ |
            ⟨_, _, _, _, _, rfl, hitem', hitems'⟩
          · exact absurd hend' hend
          · exact absurd hzero' hzero
          · obtain ⟨hitem, rfl⟩ := ihItem hitem' rfl
            obtain ⟨hitems, rfl⟩ := ihItems hitems' rfl
            cases hitem
            cases hitems
            exact ⟨rfl, rfl⟩
      | value | entries => cases hplace
  | entriesOpen =>
      cases hframed' with
      | entriesOpen => exact ⟨rfl, rfl⟩
      | eof => cases hplace
      | itemsOpen => cases hplace
  | entriesEnd =>
      cases part' with
      | entries entries' closed' =>
          rcases hframed'.entries_cons with ⟨_, rfl, rfl, rfl⟩ | ⟨hend, _⟩ | ⟨hend, _⟩
          · exact ⟨rfl, rfl⟩
          · exact absurd rfl hend
          · exact absurd rfl hend
      | value | items => cases hplace
  | entriesNoKey hend hstr _ ihEntries =>
      cases part' with
      | entries entries' closed' =>
          rcases hframed'.entries_cons with ⟨hend', _⟩ | ⟨_, _, _, rfl, hstr', hentries'⟩ |
            ⟨_, _, _, _, _, _, rfl, hstr', _⟩
          · exact absurd hend' hend
          · obtain ⟨_, rfl⟩ := ok_pair_inj (hstr.symm.trans hstr')
            obtain ⟨hentries, rfl⟩ := ihEntries hentries' rfl
            cases hentries
            exact ⟨rfl, rfl⟩
          · exact absurd (hstr.symm.trans hstr') (by simp)
      | value | items => cases hplace
  | entriesCons hend hstr _ _ ihValue ihEntries =>
      cases part' with
      | entries entries' closed' =>
          rcases hframed'.entries_cons with ⟨hend', _⟩ | ⟨_, _, _, rfl, hstr', _⟩ |
            ⟨_, _, _, _, _, _, rfl, hstr', hvalue', hentries'⟩
          · exact absurd hend' hend
          · exact absurd (hstr.symm.trans hstr') (by simp)
          · obtain ⟨hkey, rfl⟩ := ok_pair_inj (hstr.symm.trans hstr')
            obtain ⟨hvalue, rfl⟩ := ihValue hvalue' rfl
            obtain ⟨hentries, rfl⟩ := ihEntries hentries' rfl
            cases hkey
            cases hvalue
            cases hentries
            exact ⟨rfl, rfl⟩
      | value | items => cases hplace

/-- The whole stream has at most one frame. -/
theorem Framed.frame_unique {f rest rest' : InFile} {frame frame' : Frame}
    (hframed : Framed f (.value frame) rest) (hframed' : Framed f (.value frame') rest') :
    frame = frame' ∧ rest = rest' := by
  obtain ⟨hpart, hrest⟩ := hframed.deterministic hframed' rfl
  cases hpart
  exact ⟨rfl, hrest⟩

end I2pLite.Framing

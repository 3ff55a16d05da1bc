import I2pLite.Core.Decimal

/-!
# The bencode format

A bencoding is a byte string that carries a `BencodeValue`: a length-prefixed
string, `i…e` around a signed numeral, `l…e` around the encodings of a list's
items, or `d…e` around the keys and values of a dict.  `Parses` is the grammar
as a relation between an input, what is read from its front, and what is left;
it is deterministic, so no encoding is a proper prefix of another.  The length
of a string may have leading zeros; `encode` writes none.
-/

namespace I2pLite.Bencoding

open I2pLite.CBytes
open I2pLite.Decimal

inductive BencodeValue
  | str (data : List Byte)
  | int (value : ℤ)
  | list (items : List BencodeValue)
  | dict (entries : List (List Byte × BencodeValue))

/-- What a rule of the grammar reads: a value, or the rest of a list or dict
up to and including its terminator. -/
inductive Phrase
  | value (value : BencodeValue)
  | items (items : List BencodeValue)
  | entries (entries : List (List Byte × BencodeValue))

inductive Parses : List Byte → Phrase → List Byte → Prop
  | str {digits data rest} : digits ≠ [] → (∀ byte ∈ digits, isDigit byte) →
      digitsValue digits = data.length →
      Parses (digits ++ ch ':' :: (data ++ rest)) (.value (.str data)) rest
  | int {value rest} :
      Parses (ch 'i' :: (signedDecimal value ++ ch 'e' :: rest)) (.value (.int value)) rest
  | list {input items rest} : Parses input (.items items) rest →
      Parses (ch 'l' :: input) (.value (.list items)) rest
  | dict {input entries rest} : Parses input (.entries entries) rest →
      Parses (ch 'd' :: input) (.value (.dict entries)) rest
  | itemsNil {rest} : Parses (ch 'e' :: rest) (.items []) rest
  | itemsCons {input item middle items rest} : Parses input (.value item) middle →
      Parses middle (.items items) rest → Parses input (.items (item :: items)) rest
  | entriesNil {rest} : Parses (ch 'e' :: rest) (.entries []) rest
  | entriesCons {input key afterKey value middle entries rest} :
      Parses input (.value (.str key)) afterKey → Parses afterKey (.value value) middle →
      Parses middle (.entries entries) rest →
      Parses input (.entries ((key, value) :: entries)) rest

/-! ## One rule for each phrase -/

theorem parses_str_iff {input data rest : List Byte} :
    Parses input (.value (.str data)) rest ↔
      ∃ digits, digits ≠ [] ∧ (∀ byte ∈ digits, isDigit byte) ∧
        digitsValue digits = data.length ∧ input = digits ++ ch ':' :: (data ++ rest) := by
  constructor
  · intro hparses
    cases hparses with
    | str hne hdigits hlength => exact ⟨_, hne, hdigits, hlength, rfl⟩
  · rintro ⟨digits, hne, hdigits, hlength, rfl⟩
    exact .str hne hdigits hlength

theorem parses_int_iff {input rest : List Byte} {value : ℤ} :
    Parses input (.value (.int value)) rest ↔
      input = ch 'i' :: (signedDecimal value ++ ch 'e' :: rest) := by
  constructor
  · intro hparses
    cases hparses
    rfl
  · rintro rfl
    exact .int

theorem parses_list_iff {input rest : List Byte} {items : List BencodeValue} :
    Parses input (.value (.list items)) rest ↔
      ∃ body, input = ch 'l' :: body ∧ Parses body (.items items) rest := by
  constructor
  · intro hparses
    cases hparses with
    | list hbody => exact ⟨_, rfl, hbody⟩
  · rintro ⟨body, rfl, hbody⟩
    exact .list hbody

theorem parses_dict_iff {input rest : List Byte} {entries : List (List Byte × BencodeValue)} :
    Parses input (.value (.dict entries)) rest ↔
      ∃ body, input = ch 'd' :: body ∧ Parses body (.entries entries) rest := by
  constructor
  · intro hparses
    cases hparses with
    | dict hbody => exact ⟨_, rfl, hbody⟩
  · rintro ⟨body, rfl, hbody⟩
    exact .dict hbody

theorem parses_itemsNil_iff {input rest : List Byte} :
    Parses input (.items []) rest ↔ input = ch 'e' :: rest := by
  constructor
  · intro hparses
    cases hparses
    rfl
  · rintro rfl
    exact .itemsNil

theorem parses_itemsCons_iff {input rest : List Byte} {item : BencodeValue}
    {items : List BencodeValue} :
    Parses input (.items (item :: items)) rest ↔
      ∃ middle, Parses input (.value item) middle ∧ Parses middle (.items items) rest := by
  constructor
  · intro hparses
    cases hparses with
    | itemsCons hitem hitems => exact ⟨_, hitem, hitems⟩
  · rintro ⟨middle, hitem, hitems⟩
    exact .itemsCons hitem hitems

theorem parses_entriesNil_iff {input rest : List Byte} :
    Parses input (.entries []) rest ↔ input = ch 'e' :: rest := by
  constructor
  · intro hparses
    cases hparses
    rfl
  · rintro rfl
    exact .entriesNil

theorem parses_entriesCons_iff {input rest key : List Byte} {value : BencodeValue}
    {entries : List (List Byte × BencodeValue)} :
    Parses input (.entries ((key, value) :: entries)) rest ↔
      ∃ afterKey middle, Parses input (.value (.str key)) afterKey ∧
        Parses afterKey (.value value) middle ∧ Parses middle (.entries entries) rest := by
  constructor
  · intro hparses
    cases hparses with
    | entriesCons hkey hvalue hentries => exact ⟨_, _, hkey, hvalue, hentries⟩
  · rintro ⟨afterKey, middle, hkey, hvalue, hentries⟩
    exact .entriesCons hkey hvalue hentries

/-! ## The grammar is deterministic -/

/-- The bytes that a phrase can start with. -/
def Phrase.startsWith : Phrase → Byte → Prop
  | .value (.str _), byte => isDigit byte
  | .value (.int _), byte => byte = ch 'i'
  | .value (.list _), byte => byte = ch 'l'
  | .value (.dict _), byte => byte = ch 'd'
  | .items [], byte => byte = ch 'e'
  | .items (_ :: _), byte => byte ≠ ch 'e'
  | .entries [], byte => byte = ch 'e'
  | .entries (_ :: _), byte => byte ≠ ch 'e'

theorem Phrase.startsWith_value_ne {value : BencodeValue} {byte : Byte}
    (hstarts : (Phrase.value value).startsWith byte) : byte ≠ ch 'e' := by
  rintro rfl
  cases value <;> revert hstarts <;> simp [Phrase.startsWith, isDigit, ch]

theorem Parses.startsWith {input rest : List Byte} {phrase : Phrase}
    (hparses : Parses input phrase rest) :
    ∃ byte bytes, input = byte :: bytes ∧ phrase.startsWith byte := by
  induction hparses with
  | @str digits data rest hne hdigits _ =>
      cases digits with
      | nil => exact absurd rfl hne
      | cons byte digits => exact ⟨byte, _, rfl, hdigits byte (by simp)⟩
  | int => exact ⟨_, _, rfl, by simp [Phrase.startsWith]⟩
  | list _ _ => exact ⟨_, _, rfl, by simp [Phrase.startsWith]⟩
  | dict _ _ => exact ⟨_, _, rfl, by simp [Phrase.startsWith]⟩
  | itemsNil => exact ⟨_, _, rfl, by simp [Phrase.startsWith]⟩
  | itemsCons _ _ ihItem _ =>
      obtain ⟨byte, bytes, hinput, hstarts⟩ := ihItem
      exact ⟨byte, bytes, hinput, by
        simpa [Phrase.startsWith] using Phrase.startsWith_value_ne hstarts⟩
  | entriesNil => exact ⟨_, _, rfl, by simp [Phrase.startsWith]⟩
  | entriesCons _ _ _ ihKey _ _ =>
      obtain ⟨byte, bytes, hinput, hstarts⟩ := ihKey
      exact ⟨byte, bytes, hinput, by
        simpa [Phrase.startsWith] using Phrase.startsWith_value_ne hstarts⟩

/-- Two readings of one input agree on its first byte. -/
theorem Parses.startsWith_both {input rest rest' : List Byte} {phrase phrase' : Phrase}
    (hparses : Parses input phrase rest) (hparses' : Parses input phrase' rest') :
    ∃ byte, phrase.startsWith byte ∧ phrase'.startsWith byte := by
  obtain ⟨byte, bytes, hinput, hstarts⟩ := hparses.startsWith
  obtain ⟨byte', bytes', hinput', hstarts'⟩ := hparses'.startsWith
  have hsame := (List.cons.inj (hinput.symm.trans hinput')).1
  exact ⟨byte, hstarts, hsame ▸ hstarts'⟩

/-- The bytes before the first one that is not in the class are determined. -/
private theorem append_cons_inj (inClass : Byte → Bool) {left right lefts rights : List Byte}
    {stop stop' : Byte} (hleft : ∀ byte ∈ left, inClass byte)
    (hright : ∀ byte ∈ right, inClass byte) (hstop : inClass stop = false)
    (hstop' : inClass stop' = false)
    (heq : left ++ stop :: lefts = right ++ stop' :: rights) : left = right ∧ lefts = rights := by
  have htake := congrArg (List.takeWhile inClass) heq
  rw [List.takeWhile_append_of_pos hleft, List.takeWhile_append_of_pos hright,
    List.takeWhile_cons_of_neg (by simp [hstop]), List.takeWhile_cons_of_neg (by simp [hstop']),
    List.append_nil, List.append_nil] at htake
  rw [htake, List.append_cancel_left_eq] at heq
  exact ⟨htake, (List.cons.inj heq).2⟩

theorem str_deterministic {digits digits' data data' rest rest' : List Byte}
    (hdigits : ∀ byte ∈ digits, isDigit byte) (hdigits' : ∀ byte ∈ digits', isDigit byte)
    (hlength : digitsValue digits = data.length) (hlength' : digitsValue digits' = data'.length)
    (heq : digits ++ ch ':' :: (data ++ rest) = digits' ++ ch ':' :: (data' ++ rest')) :
    data = data' ∧ rest = rest' := by
  obtain ⟨rfl, htail⟩ := append_cons_inj isDigit hdigits hdigits' (by decide) (by decide) heq
  exact List.append_inj htail (hlength.symm.trans hlength')

theorem int_deterministic {value value' : ℤ} {rest rest' : List Byte}
    (heq : signedDecimal value ++ ch 'e' :: rest = signedDecimal value' ++ ch 'e' :: rest') :
    value = value' ∧ rest = rest' := by
  obtain ⟨hnumeral, hrest⟩ := append_cons_inj (fun byte => byte ≠ ch 'e')
    (by simpa using fun _ => ne_of_mem_signedDecimal)
    (by simpa using fun _ => ne_of_mem_signedDecimal) (by simp) (by simp) heq
  exact ⟨signedDecimal_injective hnumeral, hrest⟩

/-- The places of the grammar a phrase can stand in. -/
inductive Place
  | value
  | items
  | entries

def Phrase.place : Phrase → Place
  | .value _ => .value
  | .items _ => .items
  | .entries _ => .entries

/-- The rules of the grammar. -/
inductive Rule
  | str
  | int
  | list
  | dict
  | itemsNil
  | itemsCons
  | entriesNil
  | entriesCons

def Phrase.rule : Phrase → Rule
  | .value (.str _) => .str
  | .value (.int _) => .int
  | .value (.list _) => .list
  | .value (.dict _) => .dict
  | .items [] => .itemsNil
  | .items (_ :: _) => .itemsCons
  | .entries [] => .entriesNil
  | .entries (_ :: _) => .entriesCons

theorem Phrase.rule_eq_of_startsWith {phrase phrase' : Phrase} {byte : Byte}
    (hplace : phrase.place = phrase'.place) (hstarts : phrase.startsWith byte)
    (hstarts' : phrase'.startsWith byte) : phrase.rule = phrase'.rule := by
  revert hplace hstarts hstarts'
  cases phrase with
  | value value =>
      cases phrase' with
      | value value' =>
          intro _
          cases value <;> cases value' <;> simp only [Phrase.rule, Phrase.startsWith, reduceCtorEq,
            imp_false, implies_true] <;> first
            | (rintro hdigit rfl; revert hdigit; decide)
            | (rintro rfl; decide)
      | items items' => simp [Phrase.place]
      | entries entries' => simp [Phrase.place]
  | items items =>
      cases phrase' with
      | value value' => simp [Phrase.place]
      | items items' =>
          cases items <;> cases items' <;> simp +contextual [Phrase.rule, Phrase.startsWith]
      | entries entries' => simp [Phrase.place]
  | entries entries =>
      cases phrase' with
      | value value' => simp [Phrase.place]
      | items items' => simp [Phrase.place]
      | entries entries' =>
          cases entries <;> cases entries' <;> simp +contextual [Phrase.rule, Phrase.startsWith]

/-- Two readings of one input in one place use the same rule. -/
theorem Parses.rule_eq {input rest rest' : List Byte} {phrase phrase' : Phrase}
    (hparses : Parses input phrase rest) (hparses' : Parses input phrase' rest')
    (hplace : phrase.place = phrase'.place) : phrase'.rule = phrase.rule := by
  obtain ⟨byte, hstarts, hstarts'⟩ := hparses.startsWith_both hparses'
  exact (Phrase.rule_eq_of_startsWith hplace hstarts hstarts').symm

theorem Phrase.eq_of_rule_str {phrase : Phrase} (hrule : phrase.rule = .str) :
    ∃ data, phrase = .value (.str data) := by
  unfold Phrase.rule at hrule
  split at hrule <;> first | exact ⟨_, rfl⟩ | nomatch hrule

theorem Phrase.eq_of_rule_int {phrase : Phrase} (hrule : phrase.rule = .int) :
    ∃ value, phrase = .value (.int value) := by
  unfold Phrase.rule at hrule
  split at hrule <;> first | exact ⟨_, rfl⟩ | nomatch hrule

theorem Phrase.eq_of_rule_list {phrase : Phrase} (hrule : phrase.rule = .list) :
    ∃ items, phrase = .value (.list items) := by
  unfold Phrase.rule at hrule
  split at hrule <;> first | exact ⟨_, rfl⟩ | nomatch hrule

theorem Phrase.eq_of_rule_dict {phrase : Phrase} (hrule : phrase.rule = .dict) :
    ∃ entries, phrase = .value (.dict entries) := by
  unfold Phrase.rule at hrule
  split at hrule <;> first | exact ⟨_, rfl⟩ | nomatch hrule

theorem Phrase.eq_of_rule_itemsNil {phrase : Phrase} (hrule : phrase.rule = .itemsNil) :
    phrase = .items [] := by
  unfold Phrase.rule at hrule
  split at hrule <;> first | rfl | nomatch hrule

theorem Phrase.eq_of_rule_itemsCons {phrase : Phrase} (hrule : phrase.rule = .itemsCons) :
    ∃ item items, phrase = .items (item :: items) := by
  unfold Phrase.rule at hrule
  split at hrule <;> first | exact ⟨_, _, rfl⟩ | nomatch hrule

theorem Phrase.eq_of_rule_entriesNil {phrase : Phrase} (hrule : phrase.rule = .entriesNil) :
    phrase = .entries [] := by
  unfold Phrase.rule at hrule
  split at hrule <;> first | rfl | nomatch hrule

theorem Phrase.eq_of_rule_entriesCons {phrase : Phrase} (hrule : phrase.rule = .entriesCons) :
    ∃ key value entries, phrase = .entries ((key, value) :: entries) := by
  unfold Phrase.rule at hrule
  split at hrule <;> first | exact ⟨_, _, _, rfl⟩ | nomatch hrule

/-- What is read from the front of an input is determined by the input and by
the place it is read in, and so is what is left. -/
theorem Parses.deterministic {input rest rest' : List Byte} {phrase phrase' : Phrase}
    (hparses : Parses input phrase rest) (hparses' : Parses input phrase' rest')
    (hplace : phrase.place = phrase'.place) : phrase = phrase' ∧ rest = rest' := by
  induction hparses generalizing phrase' rest' with
  | str hne hdigits hlength =>
      have hrule := (Parses.str hne hdigits hlength).rule_eq hparses' hplace
      obtain ⟨data', rfl⟩ := Phrase.eq_of_rule_str hrule
      obtain ⟨digits', _, hdigits', hlength', heq⟩ := parses_str_iff.mp hparses'
      obtain ⟨rfl, rfl⟩ := str_deterministic hdigits hdigits' hlength hlength' heq
      exact ⟨rfl, rfl⟩
  | int =>
      have hrule := Parses.int.rule_eq hparses' hplace
      obtain ⟨value', rfl⟩ := Phrase.eq_of_rule_int hrule
      have heq := (List.cons.inj (parses_int_iff.mp hparses')).2
      obtain ⟨rfl, rfl⟩ := int_deterministic heq
      exact ⟨rfl, rfl⟩
  | list hbody ihBody =>
      have hrule := (Parses.list hbody).rule_eq hparses' hplace
      obtain ⟨items', rfl⟩ := Phrase.eq_of_rule_list hrule
      obtain ⟨body', hinput, hbody'⟩ := parses_list_iff.mp hparses'
      obtain rfl := (List.cons.inj hinput).2
      obtain ⟨hitems, rfl⟩ := ihBody hbody' rfl
      cases hitems
      exact ⟨rfl, rfl⟩
  | dict hbody ihBody =>
      have hrule := (Parses.dict hbody).rule_eq hparses' hplace
      obtain ⟨entries', rfl⟩ := Phrase.eq_of_rule_dict hrule
      obtain ⟨body', hinput, hbody'⟩ := parses_dict_iff.mp hparses'
      obtain rfl := (List.cons.inj hinput).2
      obtain ⟨hentries, rfl⟩ := ihBody hbody' rfl
      cases hentries
      exact ⟨rfl, rfl⟩
  | itemsNil =>
      have hrule := Parses.itemsNil.rule_eq hparses' hplace
      obtain rfl := Phrase.eq_of_rule_itemsNil hrule
      have hinput := parses_itemsNil_iff.mp hparses'
      exact ⟨rfl, (List.cons.inj hinput).2⟩
  | itemsCons hitem hitems ihItem ihItems =>
      have hrule := (Parses.itemsCons hitem hitems).rule_eq hparses' hplace
      obtain ⟨item', items', rfl⟩ := Phrase.eq_of_rule_itemsCons hrule
      obtain ⟨middle', hitem', hitems'⟩ := parses_itemsCons_iff.mp hparses'
      obtain ⟨hsameItem, rfl⟩ := ihItem hitem' rfl
      obtain ⟨hsameItems, rfl⟩ := ihItems hitems' rfl
      cases hsameItem
      cases hsameItems
      exact ⟨rfl, rfl⟩
  | entriesNil =>
      have hrule := Parses.entriesNil.rule_eq hparses' hplace
      obtain rfl := Phrase.eq_of_rule_entriesNil hrule
      have hinput := parses_entriesNil_iff.mp hparses'
      exact ⟨rfl, (List.cons.inj hinput).2⟩
  | entriesCons hkey hvalue hentries ihKey ihValue ihEntries =>
      have hrule := (Parses.entriesCons hkey hvalue hentries).rule_eq hparses' hplace
      obtain ⟨key', value', entries', rfl⟩ := Phrase.eq_of_rule_entriesCons hrule
      obtain ⟨afterKey', middle', hkey', hvalue', hentries'⟩ := parses_entriesCons_iff.mp hparses'
      obtain ⟨hsameKey, rfl⟩ := ihKey hkey' rfl
      obtain ⟨hsameValue, rfl⟩ := ihValue hvalue' rfl
      obtain ⟨hsameEntries, rfl⟩ := ihEntries hentries' rfl
      cases hsameKey
      cases hsameValue
      cases hsameEntries
      exact ⟨rfl, rfl⟩

/-- A byte string that a value is read from whatever follows it. -/
def Encodes (data : List Byte) (value : BencodeValue) : Prop :=
  ∀ rest, Parses (data ++ rest) (.value value) rest

/-- An encoding followed by any suffix is read as its value and that suffix,
and as nothing else. -/
theorem Encodes.parses_iff {data rest rest' : List Byte} {value value' : BencodeValue}
    (hencodes : Encodes data value) :
    Parses (data ++ rest) (.value value') rest' ↔ value' = value ∧ rest' = rest := by
  constructor
  · intro hparses
    obtain ⟨hvalue, hrest⟩ := (hencodes rest).deterministic hparses rfl
    cases hvalue
    exact ⟨rfl, hrest.symm⟩
  · rintro ⟨rfl, rfl⟩
    exact hencodes _

/-! ## An encoding of every value -/

/-- A string behind its length, which has no leading zeros. -/
def encodeStr (data : List Byte) : List Byte :=
  decimal data.length ++ ch ':' :: data

mutual

def encode : BencodeValue → List Byte
  | .str data => encodeStr data
  | .int value => ch 'i' :: (signedDecimal value ++ [ch 'e'])
  | .list items => ch 'l' :: (encodeItems items ++ [ch 'e'])
  | .dict entries => ch 'd' :: (encodeEntries entries ++ [ch 'e'])

def encodeItems : List BencodeValue → List Byte
  | [] => []
  | item :: items => encode item ++ encodeItems items

def encodeEntries : List (List Byte × BencodeValue) → List Byte
  | [] => []
  | (key, value) :: entries => encodeStr key ++ (encode value ++ encodeEntries entries)

end

theorem encodes_encodeStr (data : List Byte) : Encodes (encodeStr data) (.str data) := by
  intro rest
  rw [encodeStr, List.append_assoc, List.cons_append]
  exact .str (decimal_ne_nil _) (fun _ => isDigit_of_mem_decimal) (digitsValue_decimal _)

mutual

theorem encodes_encode (value : BencodeValue) : Encodes (encode value) value := by
  intro rest
  cases value with
  | str data => exact encodes_encodeStr data rest
  | int value =>
      rw [encode, List.cons_append, List.append_assoc, List.singleton_append]
      exact .int
  | list items =>
      rw [encode, List.cons_append, List.append_assoc, List.singleton_append]
      exact .list (parses_encodeItems items rest)
  | dict entries =>
      rw [encode, List.cons_append, List.append_assoc, List.singleton_append]
      exact .dict (parses_encodeEntries entries rest)

theorem parses_encodeItems (items : List BencodeValue) (rest : List Byte) :
    Parses (encodeItems items ++ ch 'e' :: rest) (.items items) rest := by
  cases items with
  | nil => exact .itemsNil
  | cons item items =>
      rw [encodeItems, List.append_assoc]
      exact .itemsCons (encodes_encode item _) (parses_encodeItems items rest)

theorem parses_encodeEntries (entries : List (List Byte × BencodeValue)) (rest : List Byte) :
    Parses (encodeEntries entries ++ ch 'e' :: rest) (.entries entries) rest := by
  cases entries with
  | nil => exact .entriesNil
  | cons entry entries =>
      obtain ⟨key, value⟩ := entry
      rw [encodeEntries, List.append_assoc, List.append_assoc]
      exact .entriesCons (encodes_encodeStr key _) (encodes_encode value _)
        (parses_encodeEntries entries rest)

end

end I2pLite.Bencoding

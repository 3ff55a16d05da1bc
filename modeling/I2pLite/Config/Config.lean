import I2pLite.Core.CRun
import I2pLite.Core.Decimal
import I2pLite.Core.Stdio

/-!
# The configuration file

Lines of a name, an equals sign and a value.  A cursor is the rest of the line
that it points to, without the terminator.  The entries are a list with the
latest at its head.
-/

namespace I2pLite.Config

open I2pLite.CRun
open I2pLite.CBytes
open I2pLite.Decimal
open I2pLite.Stdio

/-- `isalnum` in the C locale; a byte above 127 is none. -/
def isalnum (byte : Byte) : Bool :=
  isDigit byte || (ch 'A' ≤ byte && byte ≤ ch 'Z') || (ch 'a' ≤ byte && byte ≤ ch 'z')

def skipSpaces (str : List Byte) : List Byte :=
  str.dropWhile fun byte => byte = ch ' '

def skipChars (str : List Byte) : List Byte :=
  str.dropWhile fun byte => byte = ch '.' || isalnum byte

def readToComment (str : List Byte) : List Byte :=
  str.dropWhile fun byte => byte ≠ ch '#' && byte ≠ ch '\n'

def isCommentLine (str : List Byte) : Bool := (skipSpaces str).head? = some (ch '#')

def isEmtpyLine (str : List Byte) : Bool := (skipSpaces str).head? = some (ch '\n')

/-- `struct mnet_config_entry`, without the link to the entry before. -/
structure MnetConfigEntry where
  name : CString
  value : CString
  deriving DecidableEq

/-- `struct mnet_config`; following `prev` from `list` gives the entries. -/
structure MnetConfig where
  list : List MnetConfigEntry
  size : ℕ
  deriving DecidableEq

/-- Allocated storage is zero. -/
def mnetConfigAlloc : MnetConfig where
  list := []
  size := 0

def mnetConfigAppendEntry (cfg : MnetConfig) (name value : CString) : MnetConfig where
  list := { name := name, value := value } :: cfg.list
  size := cfg.size + 1

def mnetConfigForEach {User : Type} (cfg : MnetConfig)
    (iter : CString → CString → User → Run User) (user : User) : Run User :=
  cfg.list.foldlM (fun user entry => iter entry.name entry.value user) user

/-- The string of the bytes between two cursors. -/
def strndup (start rest : List Byte) : CString :=
  ofBuffer (start.take (start.length - rest.length))

/-- What a round of the loop of `mnet_config_load` makes of a line. -/
inductive LineRead
  | skipped
  | bad
  | entry (name value : CString)
  deriving DecidableEq

/-- The body of the loop of `mnet_config_load`. -/
def readLine (linebuf : List Byte) : LineRead :=
  let line := (ofBuffer linebuf).bytes
  if isCommentLine line then .skipped
  else if isEmtpyLine line then .skipped
  else
    let kstart := skipSpaces line
    let kend := skipChars kstart
    let k := strndup kstart kend
    let line := skipSpaces kend
    if line.head? ≠ some (ch '=') then .bad
    else
      let vstart := skipSpaces (line.drop 1)
      let vend := readToComment (skipChars vstart)
      let v := strndup vstart vend
      .entry k v

/-- The loop of `mnet_config_load`. -/
def loadLoop : ℕ → InFile → MnetConfig → Run (ℤ × MnetConfig)
  | 0, _, _ => .error .outOfFuel
  | fuel + 1, f, cfg =>
      match fgets 1024 f with
      | (none, _) => .ok (1, cfg)
      | (some line, f') =>
          match readLine line with
          | .skipped => loadLoop fuel f' cfg
          | .bad => .ok (0, cfg)
          | .entry k v => loadLoop fuel f' (mnetConfigAppendEntry cfg k v)

/-- The returned value and the new configuration, for a file that can be opened
or not.  Every line takes a byte of the file. -/
def mnetConfigLoad (file : Option InFile) : Run (ℤ × MnetConfig) :=
  match file with
  | none => .ok (0, mnetConfigAlloc)
  | some f => loadLoop (f.length + 1) f mnetConfigAlloc

/-- One line of a written configuration. -/
def entryLine (k v : CString) : List Byte :=
  k.bytes ++ [ch ' ', ch '=', ch ' '] ++ v.bytes ++ [ch '\n']

def mnetConfigIterWrite (k v : CString) (f : OutFile) : Run OutFile :=
  let (written, f') := fprintf f (entryLine k v)
  if written ≠ -1 then .ok f' else .error .assertFailed

end I2pLite.Config

import RaptorCommon.ConfigStore

/-!
# Writing a whole configuration

The text grows in a buffer whose capacity is checked before each header and
each entry. A formatted write stores what fits and a terminator, and moves on
by the full length, so a capacity that falls short shows in the text.
-/

set_option autoImplicit false

namespace RaptorCommon.ConfigWriter
open RaptorCommon.CText RaptorCommon.ConfigStore

structure OutBuf where
  text : Bytes
  size : ℕ

def headerText (name : Bytes) : Bytes := lbracket::name ++ [rbracket, newline]

def entryText (key value : Bytes) : Bytes :=
  key ++ space::equals::space::value ++ [newline]

def reserve (need : ℕ) (buf : OutBuf) : OutBuf :=
  if need > buf.size then { buf with size := need+4096 } else buf

/-- `snprintf` at the end of the buffer. Without room for the terminator the
last character stored is the terminator. -/
def snprintf (s : Bytes) (buf : OutBuf) : OutBuf :=
  let room := buf.size-buf.text.length
  if s.length < room then { buf with text := buf.text ++ s }
  else { buf with text := buf.text ++ s.take (room-1) ++ List.replicate (s.length-(room-1)) 0 }

def writeHeader (name : Bytes) (buf : OutBuf) : OutBuf :=
  if name = [] then buf
  else
    let grown := reserve (buf.text.length+name.length+4) buf
    let parted := if 0 < grown.text.length then { grown with text := grown.text ++ [newline] }
      else grown
    snprintf (headerText name) parted

def writeEntry (buf : OutBuf) (e : ConfigEntry) : OutBuf :=
  snprintf (entryText e.key.chars e.value.chars)
    (reserve (buf.text.length+e.key.chars.length+e.value.chars.length+8) buf)

/-- The entries a save writes, oldest first: neither display-only nor unset. -/
def savedEntries (s : ConfigSection) : List ConfigEntry :=
  (s.entries.filter (fun e => e.defaulted = false ∧ e.removed = false)).reverse

def writeSection (buf : OutBuf) (s : ConfigSection) : OutBuf :=
  if savedEntries s = [] then buf
  else (savedEntries s).foldl writeEntry (writeHeader s.name.chars buf)

/-- The text `config_write` hands to the file. -/
def configText (cfg : Config) : Bytes := (cfg.reverse.foldl writeSection ⟨[], 4096⟩).text

end RaptorCommon.ConfigWriter

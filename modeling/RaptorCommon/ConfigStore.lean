import RaptorCommon.CText
import RaptorCommon.KeyedStore
import Mathlib.Data.Nat.Digits.Lemmas

/-!
# The in-memory configuration

Sections and entries are the linked lists of rss_config.c, newest first. An
entry can be set, display-only, unset, or unset and resolved again; the three
flags are kept apart as in the source. A NULL section argument acts as the
empty name in every operation, so arguments are strings. Memory is taken to
be available.
-/

set_option autoImplicit false

namespace RaptorCommon.ConfigStore
open RaptorCommon.CText RaptorCommon.KeyedStore

abbrev maxLine : ℕ := 512
abbrev maxSecn : ℕ := 64
abbrev maxKey : ℕ := 64
abbrev maxVal : ℕ := 256

structure ConfigEntry where
  key : Field maxKey
  value : Field maxVal
  dirty : Bool
  defaulted : Bool
  removed : Bool
  deriving DecidableEq

structure ConfigSection where
  name : Field maxSecn
  removed : Bool
  dirty : Bool
  entries : List ConfigEntry
  deriving DecidableEq

abbrev Config := List ConfigSection

def entryKey (e : ConfigEntry) : Bytes := foldCase e.key.chars

def sectionKey (s : ConfigSection) : Bytes := foldCase s.name.chars

def emptySection (name : CString) : ConfigSection where
  name := rssStrlcpy maxSecn name
  removed := false
  dirty := false
  entries := []

/-- Find or create a section; `use` is what the caller does through the
returned pointer. -/
def findOrCreateSection (name : CString) (use : ConfigSection → ConfigSection)
    (cfg : Config) : Config :=
  upsert sectionKey (foldCase name.chars) use (use (emptySection name)) cfg

def foundSection (name : CString) (cfg : Config) : ConfigSection :=
  (fetch sectionKey (foldCase name.chars) cfg).getD (emptySection name)

def overwriteEntry (value : CString) (dirty defaulted : Bool) (e : ConfigEntry) : ConfigEntry :=
  { e with
    value := rssStrlcpy maxVal value
    dirty := e.dirty || dirty
    -- a default refreshing an unset key becomes what the removal displays
    defaulted := if defaulted then e.defaulted || e.removed else false
    removed := if defaulted then e.removed else false }

def newEntry (key value : CString) (dirty defaulted : Bool) : ConfigEntry where
  key := rssStrlcpy maxKey key
  value := rssStrlcpy maxVal value
  dirty := dirty
  defaulted := defaulted
  removed := false

def addEntryEx (key value : CString) (dirty defaulted : Bool) (sec : ConfigSection) :
    ConfigSection :=
  { sec with
    entries := upsert entryKey (foldCase key.chars) (overwriteEntry value dirty defaulted)
      (newEntry key value dirty defaulted) sec.entries }

def addEntry (key value : CString) : ConfigSection → ConfigSection :=
  addEntryEx key value false false

def addEntryDefault (key value : CString) : ConfigSection → ConfigSection :=
  addEntryEx key value false true

/-- The first entry a value lookup accepts: neither display-only nor unset. -/
def liveValue (key : CString) (es : List ConfigEntry) : Option (Field maxVal) :=
  es.findSome? (fun e =>
    if sameName e.key.chars key.chars ∧ e.defaulted = false ∧ e.removed = false
    then some e.value else none)

def lookupValue (sec key : CString) (cfg : Config) : Option (Field maxVal) :=
  cfg.findSome? (fun s => if sameName s.name.chars sec.chars then liveValue key s.entries else none)

def rssConfigGetStr (sec key : CString) (defaultVal : Option CString) (cfg : Config) :
    Option CString × Config :=
  match lookupValue sec key cfg with
  | some v => (some v.str, cfg)
  | none => match defaultVal with
    | none => (none, cfg)
    | some d =>
      let ds := addEntryDefault key d (foundSection sec cfg)
      let stored := ds.entries.find? (fun e => sameName e.key.chars key.chars)
      (some ((stored.map (fun e => e.value.str)).getD d),
        findOrCreateSection sec (addEntryDefault key d) cfg)

section Numbers

def digitByte (d : ℕ) : Byte := UInt8.ofNat (48+d)

/-- `snprintf(buf, 32, "%d", n)`. -/
def decimalText (n : ℤ) : Bytes :=
  ((if n < 0 then [45] else []) ++
    (if n = 0 then [48] else (Nat.digits 10 n.natAbs).reverse.map digitByte)).take 31

def digitValue (c : Byte) : Option ℕ :=
  if 48 ≤ c ∧ c ≤ 57 then some (c.toNat-48)
  else if 97 ≤ toLower c ∧ toLower c ≤ 122 then some ((toLower c).toNat-87)
  else none

def digitOf (base : ℕ) (c : Byte) : Option ℕ := (digitValue c).filter (fun d => d < base)

def digitsValue (base : ℕ) : ℕ → Bytes → ℕ
  | acc, [] => acc
  | acc, c::s => match digitOf base c with
    | some d => digitsValue base (acc*base+d) s
    | none => acc

/-- The base that `strtol(s, &end, 0)` settles on and the text it reads on
from. -/
def numberBase (s : Bytes) : ℕ × Bytes :=
  match s with
  | 48::x::d::t => if toLower x = 120 ∧ (digitOf 16 d).isSome then (16, d::t) else (8, s)
  | 48::_ => (8, s)
  | _ => (10, s)

def signOf (s : Bytes) : Bool × Bytes :=
  match s with
  | 45::t => (true, t)
  | 43::t => (false, t)
  | _ => (false, s)

/-- `strtol(s, &end, 0)` on a platform whose largest `long` is given: none
where `end == s`, saturated otherwise. -/
def strtol (longMax : ℕ) (s : Bytes) : Option ℤ :=
  let signed := signOf (s.dropWhile isSpace)
  let based := numberBase signed.2
  match based.2 with
  | [] => none
  | c::_ => match digitOf based.1 c with
    | none => none
    | some _ =>
      let n := digitsValue based.1 0 based.2
      some (if signed.1 then -((min n (longMax+1) : ℕ) : ℤ) else ((min n longMax : ℕ) : ℤ))

theorem digitByte_ne_zero (d : ℕ) (hd : d < 10) : digitByte d ≠ 0 := by
  intro h
  have := congrArg UInt8.toNat h
  simp [digitByte] at this
  omega

theorem decimal_chars (n : ℤ) (c : Byte) (hc : c ∈ decimalText n) :
    c = 45 ∨ ∃ d < 10, c = digitByte d := by
  have hm := List.mem_of_mem_take hc
  rw [List.mem_append] at hm
  rcases hm with hm | hm
  · split at hm
    · exact Or.inl (by simpa using hm)
    · simp at hm
  · split at hm
    · exact Or.inr ⟨0, by decide, by simpa [digitByte] using hm⟩
    · simp only [List.mem_map, List.mem_reverse] at hm
      obtain ⟨d, hd, rfl⟩ := hm
      exact Or.inr ⟨d, Nat.digits_lt_base (by decide) hd, rfl⟩

def decimal (n : ℤ) : CString where
  chars := decimalText n
  nul_free h := by
    rcases decimal_chars n 0 h with h | ⟨d, hd, h⟩
    · exact absurd h (by decide)
    · exact digitByte_ne_zero d hd h.symm

/-- The conversion `(int)v` of a `long`. -/
def toInt (v : ℤ) : ℤ := v.bmod (2^32)

end Numbers

def literal (s : String) (h : 0 ∉ ascii s := by decide) : CString := ⟨ascii s, h⟩

def rssConfigGetInt (longMax : ℕ) (sec key : CString) (defaultVal : ℤ) (cfg : Config) :
    ℤ × Config :=
  match rssConfigGetStr sec key none cfg with
  | (none, cfg) =>
    (defaultVal, findOrCreateSection sec (addEntryDefault key (decimal defaultVal)) cfg)
  | (some val, cfg) => ((strtol longMax val.chars).elim defaultVal toInt, cfg)

def boolText (b : Bool) : CString := if b then literal "true" else literal "false"

def parseBool (val : Bytes) : Option Bool :=
  if sameName val (ascii "true") ∨ sameName val (ascii "yes") ∨ sameName val (ascii "on") ∨
      val = ascii "1" then some true
  else if sameName val (ascii "false") ∨ sameName val (ascii "no") ∨ sameName val (ascii "off") ∨
      val = ascii "0" then some false
  else none

def rssConfigGetBool (sec key : CString) (defaultVal : Bool) (cfg : Config) : Bool × Config :=
  match rssConfigGetStr sec key none cfg with
  | (none, cfg) =>
    (defaultVal, findOrCreateSection sec (addEntryDefault key (boolText defaultVal)) cfg)
  | (some val, cfg) => ((parseBool val.chars).getD defaultVal, cfg)

def rssConfigForeach (sec : CString) (cfg : Config) : List (CString × CString) :=
  (cfg.filter (fun s => sameName s.name.chars sec.chars ∧ s.removed = false)).flatMap (fun s =>
    (s.entries.filter (fun e => e.removed = false)).map (fun e => (e.key.str, e.value.str)))

/-- The names `rss_config_foreach_section` passes to its callback, in order;
an absent prefix acts as the empty one. -/
def rssConfigForeachSection (pfx : CString) (cfg : Config) : List CString :=
  (cfg.filter (fun s => sameName (s.name.chars.take pfx.chars.length) pfx.chars ∧
    s.removed = false)).map (fun s => s.name.str)

/-- Writing into a removed section puts it back; its header owes nothing now. -/
def reviveSection (s : ConfigSection) : ConfigSection :=
  { s with removed := false, dirty := false }

def rssConfigSetStr (sec key value : CString) (cfg : Config) : Config :=
  if sec.chars = [] then cfg
  else findOrCreateSection sec (fun s => addEntryEx key value true false (reviveSection s)) cfg

def rssConfigSetInt (sec key : CString) (value : ℤ) : Config → Config :=
  rssConfigSetStr sec key (decimal value)

def rssConfigSetBool (sec key : CString) (value : Bool) : Config → Config :=
  rssConfigSetStr sec key (boolText value)

def unsetEntry (key : CString) (e : ConfigEntry) : Option (Bool × ConfigEntry) :=
  if entryKey e = foldCase key.chars then
    some (if e.defaulted || e.removed then (false, e)
      else (true, { e with removed := true, dirty := true }))
  else none

/-- A section without the key leaves the walk to the sections after it. -/
def unsetSection (sec key : CString) (s : ConfigSection) : Option (Bool × ConfigSection) :=
  if sectionKey s = foldCase sec.chars then
    (updateFirst (unsetEntry key) s.entries).map (fun r => (r.1, { s with entries := r.2 }))
  else none

def rssConfigUnset (sec key : CString) (cfg : Config) : Bool × Config :=
  (updateFirst (unsetSection sec key) cfg).getD (false, cfg)

def removeEntry (e : ConfigEntry) : ConfigEntry :=
  if e.defaulted || e.removed then e else { e with removed := true, dirty := true }

def emptiedSection (s : ConfigSection) : ConfigSection :=
  { s with removed := true, dirty := true, entries := s.entries.map removeEntry }

def removeSection (sec : CString) (s : ConfigSection) : Option (Bool × ConfigSection) :=
  if sectionKey s = foldCase sec.chars ∧ s.removed = false then some (true, emptiedSection s)
  else none

def rssConfigRemoveSection (sec : CString) (cfg : Config) : Bool × Config :=
  if sec.chars = [] then (false, cfg)
  else (updateFirst (removeSection sec) cfg).getD (false, cfg)

def rssConfigHasDirty (cfg : Config) : Bool :=
  cfg.any (fun s => (s.removed && s.dirty) || s.entries.any (fun e => e.dirty))

end RaptorCommon.ConfigStore

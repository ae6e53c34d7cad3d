import RaptorCommon.ConfigLoader
import RaptorCommon.ConfigWriter

/-!
# Editing a configuration file line by line

Every pending change is bound to the lines it owns: the last line of a set
key, every line of an unset key, the header and content of a removed section.
The text is then emitted with those lines replaced or dropped, new keys after
the content of their section and new sections at the end. A negative line
number of the source is `none`.
-/

set_option autoImplicit false

namespace RaptorCommon.ConfigEditor
open RaptorCommon.CText RaptorCommon.ConfigStore RaptorCommon.ConfigLoader
open RaptorCommon.ConfigWriter RaptorCommon.KeyedStore RaptorCommon.LineText

inductive LineKind where
  | inert
  | header
  | key
  deriving DecidableEq

structure LineInfo where
  kind : LineKind
  nonblank : Bool
  sec : Field maxSecn
  key : Field maxKey
  keyEnd : ℕ
  comOff : Option ℕ

def backBlanks (copy : Bytes) : ℕ → ℕ
  | 0 => 0
  | p+1 => if (copy[p]?).any isBlank then backBlanks copy p else p+1

def inertLine (raw : Bytes) : LineInfo where
  kind := .inert
  nonblank := raw.any (fun c => !isSpace c)
  sec := rssStrlcpy maxSecn (CString.at [])
  key := rssStrlcpy maxKey (CString.at [])
  keyEnd := 0
  comOff := none

def classifyLine (raw : Bytes) : LineInfo :=
  if maxLine ≤ raw.length then inertLine raw
  else
    let copy := (CString.at raw).chars
    let lead := (copy.takeWhile isSpace).length
    match rssTrim copy with
    | [] => inertLine raw
    | c::s =>
      if c = hashMark ∨ c = semicolon then inertLine raw
      else if c = lbracket then
        match cutAt rbracket s with
        | none => inertLine raw
        | some (name, _) => { inertLine raw with
            kind := .header
            sec := rssStrlcpy maxSecn (CString.at (rssTrim name)) }
      else match cutAt equals (c::s) with
        | none => inertLine raw
        | some (before, rest) =>
          let key := rssTrim before
          if key = [] then inertLine raw
          else
            let valAt := lead+before.length+1+(rest.takeWhile isSpace).length
            { inertLine raw with
              kind := .key
              key := rssStrlcpy maxKey (CString.at key)
              keyEnd := lead+key.length
              comOff := (findInlineComment (rssTrim rest)).map (fun p =>
                backBlanks copy (valAt+p)) }

structure DirtyRef where
  sec : Field maxSecn
  /-- None for the section's own header line. -/
  ent : Option ConfigEntry
  replaceLine : Option ℕ
  repKeyEnd : ℕ
  repComOff : Option ℕ
  appendLine : Option ℕ
  secInFile : Bool
  done : Bool

def newRef (sec : Field maxSecn) (ent : Option ConfigEntry) : DirtyRef where
  sec := sec
  ent := ent
  replaceLine := none
  repKeyEnd := 0
  repComOff := none
  appendLine := none
  secInFile := false
  done := false

def sectionRefs (s : ConfigSection) : List DirtyRef :=
  (if s.removed && s.dirty then [newRef s.name none] else []) ++
    (s.entries.filter (fun e => e.dirty)).map (fun e => newRef s.name (some e))

/-- Both lists prepend, so the reversed walk is in the order of setting. -/
def collectDirty (cfg : Config) : List DirtyRef := (cfg.flatMap sectionRefs).reverse

section Binding

def ownsHeader (li : LineInfo) (cursec : Field maxSecn) (d : DirtyRef) : Bool :=
  sameName d.sec.chars cursec.chars ∧ li.kind = .header ∧ d.ent = none

def ownsKey (li : LineInfo) (cursec : Field maxSecn) (d : DirtyRef) : Bool :=
  sameName d.sec.chars cursec.chars ∧ li.kind = .key ∧
    d.ent.any (fun e => sameName e.key.chars li.key.chars)

def bindRef (l : ℕ) (li : LineInfo) (cursec : Field maxSecn) (d : DirtyRef) : DirtyRef :=
  if sameName d.sec.chars cursec.chars then
    { d with
      secInFile := d.secInFile || li.kind = .header
      appendLine := if li.nonblank then some l else d.appendLine
      replaceLine := if ownsHeader li cursec d || ownsKey li cursec d then some l else d.replaceLine
      repKeyEnd := if ownsKey li cursec d then li.keyEnd else d.repKeyEnd
      repComOff := if ownsKey li cursec d then li.comOff else d.repComOff }
  else d

/-- A removal reaches every line of its key, or an earlier duplicate would
become the value. -/
def dropsKey (li : LineInfo) (cursec : Field maxSecn) (d : DirtyRef) : Bool :=
  ownsKey li cursec d ∧ d.ent.any (fun e => e.removed)

def bindLines (l : ℕ) (cursec : Field maxSecn) (inRemoved : Bool) (refs : List DirtyRef) :
    List Bytes → List DirtyRef × List Bool
  | [] => (refs, [])
  | raw::rest =>
    let li := classifyLine raw
    let cursec := if li.kind = .header then li.sec else cursec
    let inRemoved := (li.kind ≠ .header && inRemoved) || refs.any (ownsHeader li cursec)
    let dropped := refs.any (ownsHeader li cursec) || refs.any (dropsKey li cursec) ||
      (inRemoved && li.kind ≠ .header && li.nonblank)
    let bound := bindLines (l+1) cursec inRemoved (refs.map (bindRef l li cursec)) rest
    (bound.1, dropped::bound.2)

/-- A removal the file has no line for is settled. -/
def settleRef (d : DirtyRef) : DirtyRef :=
  if (d.ent.all (fun e => e.removed)) ∧ d.replaceLine = none then { d with done := true } else d

/-- A dropped header takes the blank line above it along. -/
def dropSeparators : List (Bytes × Bool) → List (Bytes × Bool)
  | [] => []
  | (raw, dropped)::rest => match rest with
    | [] => [(raw, dropped)]
    | (next, nextDropped)::_ =>
      (raw, dropped || (nextDropped && (classifyLine next).kind = .header &&
        !(classifyLine raw).nonblank))::dropSeparators rest

end Binding

section Emission

def refText (d : DirtyRef) : Bytes :=
  match d.ent with
  | some e => entryText e.key.chars e.value.chars
  | none => []

def emitDue (due : DirtyRef → Bool) (refs : List DirtyRef) : Bytes × List DirtyRef :=
  ((refs.filter due).flatMap refText,
    refs.map (fun d => if due d then { d with done := true } else d))

def pendingRef (d : DirtyRef) : Bool := d.ent.isSome ∧ d.done = false

def topDue (d : DirtyRef) : Bool :=
  pendingRef d ∧ d.sec.chars = [] ∧ d.replaceLine = none ∧ d.appendLine = none

def appendDue (l : ℕ) (d : DirtyRef) : Bool :=
  pendingRef d ∧ d.replaceLine = none ∧ d.appendLine = some l

/-- The line put in the place of a set key's line: comment first, then the
file's spelling of the key, are given up where the line would be too long. -/
def replacementLine (raw : Bytes) (d : DirtyRef) (e : ConfigEntry) : Bytes :=
  let vlen := e.value.chars.length
  let comlen := match d.repComOff with
    | some off => raw.length-off
    | none => 0
  let comment := if d.repKeyEnd+3+vlen+comlen ≥ maxLine then [] else
    match d.repComOff with
    | some off => raw.drop off
    | none => []
  let keylen := if d.repKeyEnd+3+vlen ≥ maxLine then 0 else d.repKeyEnd
  (if keylen > 0 then raw.take keylen else e.key.chars) ++
    space::equals::space::e.value.chars ++ comment

def markReplaced (l : ℕ) (refs : List DirtyRef) : List DirtyRef :=
  match updateFirst (fun d => if d.replaceLine = some l then
    some ((), { d with done := true }) else none) refs with
  | some r => r.2
  | none => refs

def emitLine (l : ℕ) (refs : List DirtyRef) (raw : Bytes) (dropped : Bool) :
    Bytes × List DirtyRef :=
  let rep := refs.find? (fun d => d.replaceLine = some l)
  if dropped then ([], markReplaced l refs)
  else match rep with
    | none => (raw ++ [newline], refs)
    | some d => match d.ent with
      | none => (raw ++ [newline], refs)
      | some e => (replacementLine raw d e ++ [newline], markReplaced l refs)

def emitLines (l : ℕ) (refs : List DirtyRef) : List (Bytes × Bool) → Bytes × List DirtyRef
  | [] => ([], refs)
  | (raw, dropped)::rest =>
    let line := emitLine l refs raw dropped
    let appended := emitDue (appendDue l) line.2
    let after := emitLines (l+1) appended.2 rest
    (line.1 ++ appended.1 ++ after.1, after.2)

/-- A blank line goes in front of a new section unless one is there. -/
def separator (out : Bytes) : Bytes :=
  if out = [] then []
  else if 1 < out.length ∧ out.reverse.take 2 = [newline, newline] then []
  else [newline]

/-- `written` holds the section names whose entries an earlier round of the
loop has marked done. -/
def sectionDue (written : List (Field maxSecn)) (d : DirtyRef) : Bool :=
  pendingRef d ∧ ¬ written.any (fun w => sameName w.chars d.sec.chars)

def emitNewSections (written : List (Field maxSecn)) (out : Bytes) : List DirtyRef → Bytes
  | [] => out
  | d::rest =>
    if sectionDue written d ∧ d.secInFile = false ∧ d.sec.chars ≠ [] then
      let entries := (d::rest).filter (fun r =>
        sectionDue written r ∧ sameName r.sec.chars d.sec.chars)
      emitNewSections (d.sec::written)
        (out ++ separator out ++ headerText d.sec.chars ++ entries.flatMap refText) rest
    else emitNewSections written out rest

/-- The text `config_write_surgical` makes of the file's text. -/
def editedText (refs : List DirtyRef) (text : Bytes) : Bytes :=
  let raws := pieces newline text
  let bound := bindLines 0 (rssStrlcpy maxSecn (CString.at [])) false refs raws
  let settled := bound.1.map settleRef
  let marked := dropSeparators (raws.zip bound.2)
  let top := emitDue topDue settled
  let body := emitLines 0 top.2 marked
  emitNewSections [] (top.1 ++ body.1) body.2

end Emission

end RaptorCommon.ConfigEditor
